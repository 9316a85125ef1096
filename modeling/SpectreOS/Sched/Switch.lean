/-
What the scheduler guarantees over every run: which thread can be running, that a terminated
thread stays one, and that a switch continues with the stack pointer the chosen thread was
interrupted with. `Moves` says once what an action can do to states, saved stack pointers and the
current index; the invariants are case analyses over it.
-/
import SpectreOS.Sched.Scheduler

namespace SpectreOS

open ThreadState

namespace Threads

/-- The states of all threads. -/
def states (s : Threads) (i : Fin threadMax) : ThreadState := (s.threads i).state

/-- The saved stack pointers of all threads. -/
def esps (s : Threads) (i : Fin threadMax) : Word := (s.threads i).savedEsp

variable (s : Threads) (i : Fin threadMax) (t : Thread) (state : ThreadState)

@[simp] theorem states_setThread : (s.setThread i t).states = Function.update s.states i t.state := by
  funext j
  by_cases h : j = i
  · subst h; simp [states, setThread]
  · simp [states, setThread, h]

@[simp] theorem esps_setThread : (s.setThread i t).esps = Function.update s.esps i t.savedEsp := by
  funext j
  by_cases h : j = i
  · subst h; simp [esps, setThread]
  · simp [esps, setThread, h]

@[simp] theorem currentThread_setThread : (s.setThread i t).currentThread = s.currentThread := rfl

@[simp] theorem states_setState : (s.setState i state).states = Function.update s.states i state :=
  states_setThread ..

@[simp] theorem esps_setState : (s.setState i state).esps = s.esps := by
  rw [setState, esps_setThread]
  exact Function.update_eq_self i s.esps

@[simp] theorem currentThread_setState : (s.setState i state).currentThread = s.currentThread := rfl

@[simp] theorem states_recordRun : (threadRecordRun s i).states = s.states := by
  unfold threadRecordRun
  split
  · rfl
  · rw [states_setThread]; exact Function.update_eq_self i s.states

@[simp] theorem esps_recordRun : (threadRecordRun s i).esps = s.esps := by
  unfold threadRecordRun
  split
  · rfl
  · rw [esps_setThread]; exact Function.update_eq_self i s.esps

@[simp] theorem currentThread_recordRun : (threadRecordRun s i).currentThread = s.currentThread := by
  unfold threadRecordRun
  split <;> rfl

@[simp] theorem states_recordSwitch : (threadRecordSwitch s i).states = s.states := by
  unfold threadRecordSwitch
  split
  · rfl
  · rw [states_setThread]; exact Function.update_eq_self i s.states

@[simp] theorem esps_recordSwitch : (threadRecordSwitch s i).esps = s.esps := by
  unfold threadRecordSwitch
  split
  · rfl
  · rw [esps_setThread]; exact Function.update_eq_self i s.esps

@[simp] theorem states_setCurrent : (threadSetCurrent s i).states = s.states := rfl

@[simp] theorem esps_setCurrent : (threadSetCurrent s i).esps = s.esps := rfl

@[simp] theorem currentThread_setCurrent : (threadSetCurrent s i).currentThread = some i := rfl

end Threads

/-! ## The selectors -/

section Select

variable {s : Threads} {i : Fin threadMax}

theorem isReady_iff : isReady s i = true ↔ s.states i = .ready := by
  unfold isReady threadGet Threads.states
  split <;> rename_i h <;> split at h <;> simp_all

theorem mem_roundRobin (c : Option (Fin threadMax)) (i : Fin threadMax) :
    i ∈ (List.range' 1 threadMax).map (roundRobinIndex c) := by
  obtain ⟨i, hi⟩ := i
  simp only [List.mem_map, List.mem_range'_1, threadMax] at hi ⊢
  cases c with
  | none =>
    refine ⟨i + 1, by omega, Fin.ext ?_⟩
    simp only [roundRobinIndex, Fin.ofNat, threadMax]
    omega
  | some c =>
    obtain ⟨c, hc⟩ := c
    -- the round that meets slot `i` is its distance from `c`, the full circle for `c` itself
    refine ⟨if c < i then i - c else 32 + i - c, ?_, Fin.ext ?_⟩
    · simp only [threadMax] at hc
      split <;> omega
    · simp only [roundRobinIndex, Fin.ofNat, threadMax] at hc ⊢
      split <;> omega

theorem prefer_spec (l : List (Fin threadMax)) (a : Option (Fin threadMax)) :
    (∀ i, l.foldl (prefer s) a = some i → a = some i ∨ isReady s i = true) ∧
      (l.foldl (prefer s) a = none → a = none ∧ ∀ i ∈ l, isReady s i = false) := by
  induction l generalizing a with
  | nil => exact ⟨fun i h => Or.inl h, fun h => ⟨h, by simp⟩⟩
  | cons j l ih =>
    rw [List.foldl_cons]
    obtain ⟨ih₁, ih₂⟩ := ih (prefer s a j)
    cases hj : isReady s j with
    | false =>
      have hp : prefer s a j = a := by simp [prefer, hj]
      rw [hp] at ih₁ ih₂ ⊢
      exact ⟨ih₁, fun h => ⟨(ih₂ h).1, by simpa [hj] using (ih₂ h).2⟩⟩
    | true =>
      have hp : prefer s a j = some j ∨ prefer s a j = a ∧ a ≠ none := by
        unfold prefer
        cases a with
        | none => simp [hj]
        | some k => by_cases hk : (s.threads j).id < (s.threads k).id <;> simp [hj, hk]
      refine ⟨fun i h => ?_, fun h => ?_⟩
      · rcases hp with hp | ⟨hp, -⟩
        · rcases ih₁ i h with e | e
          · rw [hp] at e; cases e; exact Or.inr hj
          · exact Or.inr e
        · rw [hp] at ih₁ h; exact ih₁ i h
      · rcases hp with hp | ⟨hp, hn⟩
        · rw [hp] at ih₂ h; cases (ih₂ h).1
        · rw [hp] at ih₂ h; exact absurd (ih₂ h).1 hn

/-- A selector answers a ready thread. -/
theorem findNextThread_ready {policy : Policy} (h : findNextThread policy s = some i) :
    s.states i = .ready := by
  rw [← isReady_iff]
  cases policy with
  | roundRobin => exact List.find?_some h
  | fcfs => exact List.find?_some h
  | priority =>
    rcases (prefer_spec (List.finRange threadMax) none).1 i h with e | e
    · cases e
    · exact e

/-- A selector answers nothing only when no thread is ready. -/
theorem findNextThread_none {policy : Policy} (h : findNextThread policy s = none) (i : Fin threadMax) :
    s.states i ≠ .ready := by
  intro hi
  rw [← isReady_iff] at hi
  cases policy with
  | roundRobin => exact List.find?_eq_none.1 h i (mem_roundRobin _ i) hi
  | fcfs => exact List.find?_eq_none.1 h i (List.mem_finRange i) hi
  | priority =>
    have := ((prefer_spec (List.finRange threadMax) none).2 h).2 i (List.mem_finRange i)
    rw [this] at hi
    cases hi

end Select

/-! ## What an action does -/

/-- The states once the interrupted thread is demoted. -/
def demoted (states : Fin threadMax → ThreadState) (c : Fin threadMax) : Fin threadMax → ThreadState :=
  Function.update states c (if states c = .running then .ready else states c)

/-- The actions that wake a blocked thread. -/
def SchedAct.wakes : SchedAct → Bool
  | unblock _ | wake _ | wakeOne => true
  | _ => false

/-- Everything an action can do to the states, the saved stack pointers and the current index. -/
inductive Moves (base : Word) (s s' : Threads) : SchedAct → Prop where
  | idle {a : SchedAct} (states : s'.states = s.states) (esps : s'.esps = s.esps)
      (current : s'.currentThread = s.currentThread) : Moves base s s' a
  | create (entry : Word) (i : Fin threadMax) (unused : s.states i = .unused)
      (states : s'.states = Function.update s.states i .ready)
      (esps : s'.esps = Function.update s.esps i (initialEsp base i))
      (current : s'.currentThread = s.currentThread) : Moves base s s' (.create entry)
  | leave {a : SchedAct} (i : Fin threadMax) (at_ : s.currentThread = some i) (next : ThreadState)
      (how : a = .exit ∧ next = .terminated ∨ a = .blockCurrent ∧ next = .blocked ∧ s.states i = .running)
      (states : s'.states = Function.update s.states i next) (esps : s'.esps = s.esps)
      (current : s'.currentThread = s.currentThread) : Moves base s s' a
  | wake {a : SchedAct} (wakes : a.wakes = true) (i : Fin threadMax) (blocked : s.states i = .blocked)
      (states : s'.states = Function.update s.states i .ready) (esps : s'.esps = s.esps)
      (current : s'.currentThread = s.currentThread) : Moves base s s' a
  | halt (esp : Word) (c : Fin threadMax) (at_ : s.currentThread = some c)
      (none : ∀ i, demoted s.states c i ≠ .ready) (states : s'.states = demoted s.states c)
      (esps : s'.esps = Function.update s.esps c esp) (current : s'.currentThread = some c) :
      Moves base s s' (.tick esp)
  | switch (esp : Word) (c next : Fin threadMax) (at_ : s.currentThread = some c)
      (ready : demoted s.states c next = .ready)
      (states : s'.states = Function.update (demoted s.states c) next .running)
      (esps : s'.esps = Function.update s.esps c esp) (current : s'.currentThread = some next) :
      Moves base s s' (.tick esp)

section Step

variable {base : Word} {s : Threads}

theorem unblockAt_moves (i : Fin threadMax) {a : SchedAct} (ha : a.wakes = true) : Moves base s (unblockAt s i) a := by
  unfold unblockAt
  split
  · rename_i h
    exact .wake ha i h (s.states_setState i _) (s.esps_setState i _) rfl
  · exact .idle rfl rfl rfl

theorem threadCreate_moves (entry : Word) : Moves base s (threadCreate base entry s).2 (.create entry) := by
  unfold threadCreate
  split
  · exact .idle rfl rfl rfl
  · split
    · exact .idle rfl rfl rfl
    · rename_i i hi
      have hu : s.states i = .unused := by
        have := List.find?_some hi
        simpa [Threads.states] using this
      exact .create entry i hu (Threads.states_setThread ..) (Threads.esps_setThread ..) rfl

theorem threadWakeOne_moves : Moves base s (threadWakeOne s) .wakeOne := by
  unfold threadWakeOne
  split
  · exact .idle rfl rfl rfl
  · rename_i i hi
    have hb : s.states i = .blocked := by
      have := List.find?_some hi
      simpa [Threads.states] using this
    exact .wake rfl i hb (s.states_setState i _) (s.esps_setState i _) rfl

end Step

theorem saveCurrent_spec {s : Threads} {c : Fin threadMax} (hc : s.currentThread = some c)
    (hu : s.states c ≠ .unused) (esp : Word) :
    (saveCurrent esp s).states = demoted s.states c ∧ (saveCurrent esp s).esps = Function.update s.esps c esp ∧
      (saveCurrent esp s).currentThread = some c := by
  have hget : threadGet s c = some (s.threads c) := if_neg hu
  simp only [saveCurrent, hc, hget]
  exact ⟨Threads.states_setThread .., Threads.esps_setThread .., hc⟩

/-- `scheduler_tick` while a thread is current: its answer, and the tables after it. -/
theorem schedulerTick_spec {s : Scheduler} {c : Fin threadMax} (hc : s.currentThread = some c)
    (hu : s.states c ≠ .unused) (esp : Word) :
    ((∀ i, demoted s.states c i ≠ .ready) ∧ (schedulerTick esp s).1 = esp ∧
        (schedulerTick esp s).2.states = demoted s.states c ∧
        (schedulerTick esp s).2.currentThread = some c ∨
      ∃ next, findNextThread s.schedulerPolicy (saveCurrent esp s.toThreads) = some next ∧
        demoted s.states c next = .ready ∧
        (schedulerTick esp s).1 = Function.update s.esps c esp next ∧
        (schedulerTick esp s).2.states = Function.update (demoted s.states c) next .running ∧
        (schedulerTick esp s).2.currentThread = some next) ∧
      (schedulerTick esp s).2.esps = Function.update s.esps c esp := by
  obtain ⟨hst, hes, hcu⟩ := saveCurrent_spec hc hu esp
  unfold schedulerTick
  simp only
  cases hn : findNextThread s.schedulerPolicy (saveCurrent esp s.toThreads) with
  | none =>
    simp only
    have := findNextThread_none hn
    rw [hst] at this
    exact ⟨Or.inl ⟨this, trivial, hst, hcu⟩, hes⟩
  | some next =>
    have hr := findNextThread_ready hn
    have hg : threadGet (saveCurrent esp s.toThreads) next = some ((saveCurrent esp s.toThreads).threads next) :=
      if_neg fun h => by rw [Threads.states, h] at hr; cases hr
    simp only [hg]
    refine ⟨Or.inr ⟨next, rfl, by rw [← hst]; exact hr, by rw [← hes]; rfl, ?_, ?_⟩, ?_⟩
    · simp only [switchTo]
      split <;> simp [hst]
    · simp [switchTo]
    · simp only [switchTo]
      split <;> simp [hes]

/-- The relation between the two modules: there is a current thread, its slot is in use, and no
other thread is running. -/
structure Coherent (s : Threads) : Prop where
  current : ∃ c, s.currentThread = some c ∧ s.states c ≠ .unused
  running : ∀ i, s.states i = .running → s.currentThread = some i

theorem schedStep_moves {base : Word} {s : Scheduler} (h : Coherent s.toThreads) (a : SchedAct) :
    Moves base s.toThreads (schedStep base s a).toThreads a := by
  obtain ⟨c, hc, hu⟩ := h.current
  cases a with
  | create entry => exact threadCreate_moves entry
  | blockCurrent =>
    simp only [schedStep, Scheduler.onThreads, threadBlockCurrent, hc]
    split
    · rename_i hr
      exact .leave c hc .blocked (Or.inr ⟨rfl, rfl, hr⟩) (Threads.states_setState ..) (Threads.esps_setState ..) rfl
    · exact .idle rfl rfl rfl
  | exit =>
    simp only [schedStep, Scheduler.onThreads, threadExit, hc]
    exact .leave c hc .terminated (Or.inl ⟨rfl, rfl⟩) (Threads.states_setState ..) (Threads.esps_setState ..) rfl
  | unblock index =>
    simp only [schedStep, Scheduler.onThreads, threadUnblock]
    split
    · exact unblockAt_moves _ rfl
    · exact .idle rfl rfl rfl
  | wake threadId =>
    simp only [schedStep, Scheduler.onThreads, threadWake]
    split
    · exact .idle rfl rfl rfl
    · split
      · exact unblockAt_moves _ rfl
      · exact .idle rfl rfl rfl
  | wakeOne => exact threadWakeOne_moves
  | setPolicy policy =>
    have : (schedulerSetPolicy policy s).toThreads = s.toThreads := by
      unfold schedulerSetPolicy
      split <;> rfl
    simp only [schedStep, this]
    exact .idle rfl rfl rfl
  | tick esp =>
    obtain ⟨⟨hn, -, hst, hcu⟩ | ⟨next, -, hr, -, hst, hcu⟩, hes⟩ := schedulerTick_spec hc hu esp
    · exact .halt esp c hc hn hst hes hcu
    · exact .switch esp c next hc hr hst hes hcu

/-! ## Invariants -/

theorem demoted_of_ne {states : Fin threadMax → ThreadState} {c i : Fin threadMax} (h : i ≠ c) :
    demoted states c i = states i := Function.update_of_ne h _ _

theorem demoted_self (states : Fin threadMax → ThreadState) (c : Fin threadMax) :
    demoted states c c = if states c = .running then .ready else states c := Function.update_self c _ _

/-- Demoting moves a running thread and no other. -/
theorem demoted_eq_of_ne_ready {states : Fin threadMax → ThreadState} {c i : Fin threadMax} {t : ThreadState}
    (hs : t ≠ .running) (hr : t ≠ .ready) : demoted states c i = t ↔ states i = t := by
  by_cases h : i = c
  · subst h
    rw [demoted_self]
    split
    · rename_i h
      rw [h]
      exact ⟨fun e => absurd e.symm hr, fun e => absurd e.symm hs⟩
    · exact Iff.rfl
  · rw [demoted_of_ne h]

/-- After demoting no thread but the current one can be running, and it is not. -/
theorem Coherent.demoted_ne_running {s : Threads} {c : Fin threadMax} (h : Coherent s)
    (hc : s.currentThread = some c) (i : Fin threadMax) : demoted s.states c i ≠ .running := by
  by_cases hi : i = c
  · subst hi
    rw [demoted_self]
    split
    · exact nofun
    · assumption
  · rw [demoted_of_ne hi]
    intro hr
    exact hi (Option.some.inj ((h.running i hr).symm.trans hc))

theorem Coherent.moves {base : Word} {s s' : Threads} {a : SchedAct} (h : Coherent s) (hm : Moves base s s' a) :
    Coherent s' := by
  obtain ⟨c, hc, hu⟩ := h.current
  cases hm with
  | idle states esps current =>
    refine ⟨⟨c, current.trans hc, by rw [states]; exact hu⟩, fun i hi => ?_⟩
    rw [current]
    exact h.running i (by rw [← states]; exact hi)
  | create entry i unused states esps current =>
    have hci : c ≠ i := fun e => hu (e ▸ unused)
    refine ⟨⟨c, current.trans hc, by rw [states, Function.update_of_ne hci]; exact hu⟩, fun j hj => ?_⟩
    rw [current]
    rw [states] at hj
    by_cases hji : j = i
    · subst hji
      rw [Function.update_self] at hj
      cases hj
    · exact h.running j (by rwa [Function.update_of_ne hji] at hj)
  | leave i at_ next how states esps current =>
    have hn : next ≠ .unused ∧ next ≠ .running := by
      rcases how with ⟨-, rfl⟩ | ⟨-, rfl, -⟩ <;> exact ⟨nofun, nofun⟩
    refine ⟨⟨i, current.trans at_, by rw [states, Function.update_self]; exact hn.1⟩, fun j hj => ?_⟩
    rw [current]
    rw [states] at hj
    by_cases hji : j = i
    · exact hji ▸ at_
    · exact h.running j (by rwa [Function.update_of_ne hji] at hj)
  | wake wakes i blocked states esps current =>
    refine ⟨⟨c, current.trans hc, ?_⟩, fun j hj => ?_⟩
    · rw [states]
      by_cases hci : c = i
      · subst hci; rw [Function.update_self]; exact nofun
      · rw [Function.update_of_ne hci]; exact hu
    · rw [current]
      rw [states] at hj
      by_cases hji : j = i
      · subst hji
        rw [Function.update_self] at hj
        cases hj
      · exact h.running j (by rwa [Function.update_of_ne hji] at hj)
  | halt esp c' at_ none states esps current =>
    refine ⟨⟨c', current, ?_⟩, fun j hj => ?_⟩
    · rw [states]
      intro e
      rw [demoted_eq_of_ne_ready (t := .unused) nofun nofun] at e
      exact hu (Option.some.inj (hc.symm.trans at_) ▸ e)
    · rw [states] at hj
      exact absurd hj (h.demoted_ne_running at_ j)
  | switch esp c' next at_ ready states esps current =>
    refine ⟨⟨next, current, by rw [states, Function.update_self]; exact nofun⟩, fun j hj => ?_⟩
    rw [states] at hj
    by_cases hji : j = next
    · rw [hji, current]
    · rw [Function.update_of_ne hji] at hj
      exact absurd hj (h.demoted_ne_running at_ j)

theorem schedBoot_coherent (s₀ : Threads) : Coherent (schedBoot s₀).toThreads := by
  refine ⟨⟨0, rfl, by simp [schedBoot, schedulerInit, threadInit, Threads.states]⟩, fun i hi => ?_⟩
  by_cases h : i = 0
  · rw [h]; rfl
  · simp [schedBoot, schedulerInit, threadInit, Threads.states, h] at hi

theorem schedRun_coherent {base : Word} {s : Scheduler} (h : Coherent s.toThreads) (acts : List SchedAct) :
    Coherent (schedRun base s acts).toThreads := by
  induction acts generalizing s with
  | nil => exact h
  | cons a acts ih => exact ih (h.moves (schedStep_moves h a))

/-- A terminated thread stays terminated. -/
theorem Moves.terminated {base : Word} {s s' : Threads} {a : SchedAct} (hm : Moves base s s' a)
    {i : Fin threadMax} (hi : s.states i = .terminated) : s'.states i = .terminated := by
  cases hm with
  | idle states esps current => rw [states, hi]
  | create entry j unused states esps current =>
    rw [states, Function.update_of_ne (fun e => by rw [e, unused] at hi; cases hi), hi]
  | leave j at_ next how states esps current =>
    rw [states]
    by_cases hij : i = j
    · subst hij
      rw [Function.update_self]
      rcases how with ⟨-, rfl⟩ | ⟨-, -, hr⟩
      · rfl
      · rw [hr] at hi; cases hi
    · rw [Function.update_of_ne hij, hi]
  | wake wakes j blocked states esps current =>
    rw [states, Function.update_of_ne (fun e => by rw [e, blocked] at hi; cases hi), hi]
  | halt esp c at_ none states esps current =>
    rw [states, demoted_eq_of_ne_ready (t := .terminated) nofun nofun, hi]
  | switch esp c next at_ ready states esps current =>
    have hd : demoted s.states c i = .terminated := (demoted_eq_of_ne_ready (t := .terminated) nofun nofun).2 hi
    rw [states, Function.update_of_ne (fun e => by rw [e, ready] at hd; cases hd), hd]

/-- What the scheduler does with states, in every run from boot: only the current thread can be
running, a terminated thread stays terminated and no later tick selects it, and a tick that finds
a ready thread leaves exactly one running, the current one, which was ready or was preempted. -/
theorem schedRun_states (base : Word) (s₀ : Threads) (acts : List SchedAct) :
    let s := schedRun base (schedBoot s₀) acts
    (∀ i, (s.threads i).state = .running → s.currentThread = some i) ∧
    (∀ i, (s.threads i).state = .terminated → ∀ more, let s' := schedRun base s more
      (s'.threads i).state = .terminated ∧
      ∀ esp, findNextThread s'.schedulerPolicy (saveCurrent esp s'.toThreads) ≠ some i) ∧
    (∀ esp, (∃ i, isReady (saveCurrent esp s.toThreads) i = true) →
      ∃ i, (schedulerTick esp s).2.currentThread = some i ∧
        (∀ j, ((schedulerTick esp s).2.threads j).state = .running ↔ j = i) ∧
        ((s.threads i).state = .ready ∨ s.currentThread = some i ∧ (s.threads i).state = .running)) := by
  intro s
  have hs : Coherent s.toThreads := schedRun_coherent (schedBoot_coherent s₀) acts
  refine ⟨hs.running, fun i hi more => ?_, fun esp hready => ?_⟩
  · have hkept : ∀ {s : Scheduler}, Coherent s.toThreads → s.states i = .terminated →
        (schedRun base s more).states i = .terminated := by
      induction more with
      | nil => exact fun _ h => h
      | cons a more ih =>
        intro s hs hi
        have hm := @schedStep_moves base _ hs a
        exact ih (hs.moves hm) (hm.terminated hi)
    refine ⟨hkept hs hi, fun esp hsel => ?_⟩
    obtain ⟨c, hc, hu⟩ := (@schedRun_coherent base _ hs more).current
    have hd := (demoted_eq_of_ne_ready (t := .terminated) (c := c) nofun nofun).2 (hkept hs hi)
    rcases (schedulerTick_spec hc hu esp).1 with ⟨hn, -⟩ | ⟨next, hnext, hr, -⟩
    · exact absurd (findNextThread_ready hsel) (by
        rw [(saveCurrent_spec hc hu esp).1]
        exact hn i)
    · rw [hsel] at hnext
      cases hnext
      rw [hr] at hd
      cases hd
  · obtain ⟨c, hc, hu⟩ := hs.current
    obtain ⟨⟨hn, -⟩ | ⟨next, -, hr, -, hst, hcu⟩, -⟩ := schedulerTick_spec hc hu esp
    · obtain ⟨i, hi⟩ := hready
      rw [isReady_iff, (saveCurrent_spec hc hu esp).1] at hi
      exact absurd hi (hn i)
    · refine ⟨next, hcu, fun j => ?_, ?_⟩
      · change (schedulerTick esp s).2.states j = .running ↔ _
        rw [hst]
        by_cases hj : j = next
        · simp [hj]
        · rw [Function.update_of_ne hj]
          exact iff_of_false (hs.demoted_ne_running hc j) hj
      · by_cases hnc : next = c
        · subst hnc
          rw [demoted_self] at hr
          by_cases hrun : s.states next = .running
          · exact Or.inr ⟨hc, hrun⟩
          · rw [if_neg hrun] at hr
            exact Or.inl hr
        · rw [demoted_of_ne hnc] at hr
          exact Or.inl hr

/-! ## Saved stack pointers -/

section History

variable (base : Word) (s : Scheduler)

/-- The stack pointer passed at the most recent tick of the run that interrupted thread `t` was
`esp`. -/
def LastTick (acts : List SchedAct) (t : Fin threadMax) (esp : Word) : Prop :=
  ∃ before after, acts = before ++ .tick esp :: after ∧ (schedRun base s before).currentThread = some t ∧
    ∀ mid e rest, after = mid ++ .tick e :: rest →
      (schedRun base s (before ++ .tick esp :: mid)).currentThread ≠ some t

/-- Thread `t` was current at no point of the run. -/
def NeverCurrent (acts : List SchedAct) (t : Fin threadMax) : Prop :=
  ∀ before after, acts = before ++ after → (schedRun base s before).currentThread ≠ some t

end History

section Saved

variable {base : Word} {s : Scheduler} {acts : List SchedAct} {a : SchedAct} {t : Fin threadMax}

theorem schedRun_snoc (acts : List SchedAct) (a : SchedAct) :
    schedRun base s (acts ++ [a]) = schedStep base (schedRun base s acts) a := by
  rw [schedRun_append]
  rfl

/-- A later action that does not interrupt `t` leaves its last tick as it was. -/
theorem LastTick.snoc {esp : Word} (h : LastTick base s acts t esp)
    (hc : (schedRun base s acts).currentThread ≠ some t) : LastTick base s (acts ++ [a]) t esp := by
  obtain ⟨before, after, rfl, hb, hlast⟩ := h
  refine ⟨before, after ++ [a], by simp, hb, fun mid e rest he => ?_⟩
  rcases List.eq_nil_or_concat rest with rfl | ⟨rest, b, rfl⟩
  · obtain ⟨rfl, -⟩ := List.append_inj' he rfl
    exact hc
  · have : after ++ [a] = (mid ++ .tick e :: rest) ++ [b] := by simpa using he
    exact hlast mid e rest (List.append_inj' this rfl).1

theorem NeverCurrent.snoc (h : NeverCurrent base s acts t)
    (hc : (schedRun base s (acts ++ [a])).currentThread ≠ some t) : NeverCurrent base s (acts ++ [a]) t := by
  intro before after he
  rcases List.eq_nil_or_concat after with rfl | ⟨after, b, rfl⟩
  · rw [List.append_nil] at he
    exact he ▸ hc
  · have : acts ++ [a] = (before ++ after) ++ [b] := by simpa using he
    exact h before after (List.append_inj' this rfl).1

/-- The saved stack pointers of the threads that are not current, as history determines them. -/
structure Saved (base : Word) (s : Scheduler) (acts : List SchedAct) : Prop where
  unused : ∀ t, (schedRun base s acts).states t = .unused → NeverCurrent base s acts t
  waiting : ∀ t, (schedRun base s acts).states t ≠ .unused → (schedRun base s acts).currentThread ≠ some t →
    LastTick base s acts t ((schedRun base s acts).esps t) ∨
      NeverCurrent base s acts t ∧ (schedRun base s acts).esps t = initialEsp base t

/-- A slot in use stays in use. -/
theorem Coherent.unused {s s' : Threads} (h : Coherent s) (hm : Moves base s s' a) (ht : s'.states t = .unused) :
    s.states t = .unused ∧ s'.currentThread ≠ some t := by
  obtain ⟨c, hc, hu⟩ := (h.moves hm).current
  have hne : s'.currentThread ≠ some t := fun e => hu (Option.some.inj (hc.symm.trans e) ▸ ht)
  refine ⟨?_, hne⟩
  cases hm with
  | idle states esps current => rwa [states] at ht
  | create entry i unused states esps current =>
    by_cases hti : t = i
    · exact hti ▸ unused
    · rwa [states, Function.update_of_ne hti] at ht
  | leave i at_ next how states esps current =>
    rwa [states, Function.update_of_ne (fun e => hne (by rw [current, at_, e]))] at ht
  | wake wakes i blocked states esps current =>
    by_cases hti : t = i
    · subst hti
      rw [states, Function.update_self] at ht
      cases ht
    · rwa [states, Function.update_of_ne hti] at ht
  | halt esp c at_ none states esps current =>
    rw [states] at ht
    exact (demoted_eq_of_ne_ready (t := .unused) nofun nofun).1 ht
  | switch esp c next at_ ready states esps current =>
    rw [states, Function.update_of_ne (fun e => hne (by rw [current, e]))] at ht
    exact (demoted_eq_of_ne_ready (t := .unused) nofun nofun).1 ht

/-- The saved stack pointer of a thread that is not current stays, unless `thread_create` builds it
in an unused slot. -/
theorem Moves.esps_of_ne {s s' : Threads} (hm : Moves base s s' a) (ht : s.currentThread ≠ some t) :
    s'.esps t = s.esps t ∧ (s.states t = .unused → s'.states t = .unused) ∨
      (∃ entry, a = .create entry) ∧ s.states t = .unused ∧ s'.esps t = initialEsp base t := by
  cases hm with
  | idle states esps current => exact Or.inl ⟨by rw [esps], fun h => by rw [states, h]⟩
  | create entry i unused states esps current =>
    by_cases hti : t = i
    · subst hti
      exact Or.inr ⟨⟨entry, rfl⟩, unused, by rw [esps, Function.update_self]⟩
    · exact Or.inl ⟨by rw [esps, Function.update_of_ne hti], fun h => by rw [states, Function.update_of_ne hti, h]⟩
  | leave i at_ next how states esps current =>
    have hti : t ≠ i := fun e => ht (by rw [at_, e])
    exact Or.inl ⟨by rw [esps], fun h => by rw [states, Function.update_of_ne hti, h]⟩
  | wake wakes i blocked states esps current =>
    refine Or.inl ⟨by rw [esps], fun h => ?_⟩
    have hti : t ≠ i := fun e => by rw [e, blocked] at h; cases h
    rw [states, Function.update_of_ne hti, h]
  | halt esp c at_ none states esps current =>
    have htc : t ≠ c := fun e => ht (by rw [at_, e])
    exact Or.inl ⟨by rw [esps, Function.update_of_ne htc], fun h => by rw [states, demoted_of_ne htc, h]⟩
  | switch esp c next at_ ready states esps current =>
    have htc : t ≠ c := fun e => ht (by rw [at_, e])
    refine Or.inl ⟨by rw [esps, Function.update_of_ne htc], fun h => ?_⟩
    have htn : t ≠ next := fun e => by rw [← e, demoted_of_ne htc, h] at ready; cases ready
    rw [states, Function.update_of_ne htn, demoted_of_ne htc, h]

/-- Only a tick takes the processor from a thread, and it saves the stack pointer it was passed. -/
theorem Moves.preempted {s s' : Threads} (hm : Moves base s s' a) (ht : s.currentThread = some t)
    (ht' : s'.currentThread ≠ some t) : a = .tick (s'.esps t) := by
  cases hm with
  | idle states esps current => exact absurd (current.trans ht) ht'
  | create entry i unused states esps current => exact absurd (current.trans ht) ht'
  | leave i at_ next how states esps current => exact absurd (current.trans ht) ht'
  | wake wakes i blocked states esps current => exact absurd (current.trans ht) ht'
  | halt esp c at_ none states esps current => exact absurd (current.trans (at_.symm.trans ht)) ht'
  | switch esp c next at_ ready states esps current =>
    cases Option.some.inj (at_.symm.trans ht)
    rw [esps, Function.update_self]

theorem Saved.snoc (hs : Coherent (schedRun base s acts).toThreads) (h : Saved base s acts) (a : SchedAct) :
    Saved base s (acts ++ [a]) := by
  have hm := @schedStep_moves base _ hs a
  rw [← schedRun_snoc] at hm
  refine ⟨fun t ht => ?_, fun t ht hc' => ?_⟩
  · obtain ⟨ht₀, hc'⟩ := hs.unused hm ht
    exact (h.unused t ht₀).snoc hc'
  · by_cases hc : (schedRun base s acts).currentThread = some t
    · refine Or.inl ⟨acts, [], ?_, hc, by simp⟩
      rw [← hm.preempted hc hc']
    · rcases hm.esps_of_ne hc with he | ⟨-, hun, he⟩
      · rw [he.1]
        rcases h.waiting t (fun hun => ht (he.2 hun)) hc with hl | ⟨hn, hi⟩
        · exact Or.inl (hl.snoc hc)
        · exact Or.inr ⟨hn.snoc hc', hi⟩
      · exact Or.inr ⟨(h.unused t hun).snoc hc', he⟩

theorem saved_boot (s₀ : Threads) : Saved base (schedBoot s₀) [] := by
  have h0 : ∀ t, (schedBoot s₀).states t = .unused ↔ t ≠ 0 := by
    intro t
    by_cases h : t = 0 <;> simp [schedBoot, schedulerInit, threadInit, Threads.states, h]
  refine ⟨fun t ht before after he hc => ?_, fun t ht hc => absurd ?_ hc⟩
  · obtain ⟨rfl, rfl⟩ := List.append_eq_nil_iff.1 he.symm
    exact (h0 t).1 ht (Option.some.inj hc).symm
  · have : t = 0 := not_not.1 fun h => ht ((h0 t).2 h)
    rw [this]
    rfl

theorem schedRun_saved (base : Word) (s₀ : Threads) (acts : List SchedAct) : Saved base (schedBoot s₀) acts := by
  induction acts using List.reverseRecOn with
  | nil => exact saved_boot s₀
  | append_singleton acts a ih => exact ih.snoc (schedRun_coherent (schedBoot_coherent s₀) acts) a

end Saved

/-- Context switches restore the right stack: in every run from boot a tick answers the stack
pointer it was passed and leaves the current thread, or it makes another thread current and answers
the one passed at the last tick that interrupted that thread, or the frame `thread_create` built if
the thread was never current. The saved pointer of a thread that is not current is written by no
action but the `thread_create` that builds it. -/
theorem schedulerTick_esp (base : Word) (s₀ : Threads) (acts : List SchedAct) :
    let s := schedRun base (schedBoot s₀) acts
    (∀ esp, (schedulerTick esp s).1 = esp ∧ (schedulerTick esp s).2.currentThread = s.currentThread ∨
      ∃ t, (schedulerTick esp s).2.currentThread = some t ∧ s.currentThread ≠ some t ∧
        (LastTick base (schedBoot s₀) acts t (schedulerTick esp s).1 ∨
          NeverCurrent base (schedBoot s₀) acts t ∧ (schedulerTick esp s).1 = initialEsp base t)) ∧
    (∀ t, s.currentThread ≠ some t → ∀ a,
      ((schedStep base s a).threads t).savedEsp = (s.threads t).savedEsp ∨
        (∃ entry, a = .create entry) ∧ (s.threads t).state = .unused ∧
          ((schedStep base s a).threads t).savedEsp = initialEsp base t) := by
  intro s
  have hs : Coherent s.toThreads := schedRun_coherent (schedBoot_coherent s₀) acts
  refine ⟨fun esp => ?_, fun t ht a => ?_⟩
  · obtain ⟨c, hc, hu⟩ := hs.current
    obtain ⟨⟨-, hret, -, hcu⟩ | ⟨next, -, hr, hret, -, hcu⟩, -⟩ := schedulerTick_spec hc hu esp
    · exact Or.inl ⟨hret, hcu.trans hc.symm⟩
    · by_cases hnc : next = c
      · subst hnc
        exact Or.inl ⟨by rw [hret, Function.update_self], hcu.trans hc.symm⟩
      · have hne : s.currentThread ≠ some next := fun e => hnc (Option.some.inj (e.symm.trans hc))
        rw [hret, Function.update_of_ne hnc]
        rw [demoted_of_ne hnc] at hr
        exact Or.inr ⟨next, hcu, hne,
          (schedRun_saved base s₀ acts).waiting next (fun h => by rw [hr] at h; cases h) hne⟩
  · rcases (@schedStep_moves base _ hs a).esps_of_ne ht with ⟨h, -⟩ | h
    · exact Or.inl h
    · exact Or.inr h

end SpectreOS

/-
Round robin is fair (scheduler.c): between two ticks that select one thread, every other thread that
stays ready is selected. The cyclic scan starts behind the current thread, so a ready thread that it
passes over comes nearer to the start of the next scan; what happens between the ticks does not move
the start.
-/
import SpectreOS.Sched.Switch

namespace SpectreOS

/-! ## The cyclic scan -/

/-- The round of `find_round_robin` that looks at slot `i` while `c` is current. -/
def roundOf (c i : Fin threadMax) : Nat := if c < i then i - c else threadMax + i - c

section Scan

variable {c i j : Fin threadMax}

theorem roundOf_mem (c i : Fin threadMax) : roundOf c i ∈ List.range' 1 threadMax := by
  have hc : c.val < 32 := c.isLt
  have hi : i.val < 32 := i.isLt
  simp only [roundOf, Fin.lt_def, List.mem_range'_1, threadMax]
  split <;> omega

theorem roundRobinIndex_roundOf (c i : Fin threadMax) : roundRobinIndex (some c) (roundOf c i) = i := by
  have hc : c.val < 32 := c.isLt
  have hi : i.val < 32 := i.isLt
  apply Fin.ext
  simp only [roundRobinIndex, roundOf, Fin.ofNat, Fin.lt_def, threadMax]
  split <;> omega

theorem roundOf_roundRobinIndex {offset : Nat} (h : offset ∈ List.range' 1 threadMax) :
    roundOf c (roundRobinIndex (some c) offset) = offset := by
  have hc : c.val < 32 := c.isLt
  simp only [roundOf, roundRobinIndex, Fin.ofNat, Fin.lt_def, List.mem_range'_1, threadMax] at h ⊢
  split <;> omega

/-- A slot behind the one selected is as much nearer in the next scan. -/
theorem roundOf_next (h : roundOf c i < roundOf c j) : roundOf i j + roundOf c i = roundOf c j := by
  have hc : c.val < 32 := c.isLt
  have hi : i.val < 32 := i.isLt
  have hj : j.val < 32 := j.isLt
  simp only [roundOf, Fin.lt_def, threadMax] at h ⊢
  split_ifs at h ⊢ <;> omega

/-- The scan stops at the first ready slot. -/
theorem findRoundRobin_first {s : Threads} (hc : s.currentThread = some c) (h : findRoundRobin s = some i)
    (hj : isReady s j = true) : roundOf c i ≤ roundOf c j := by
  rw [findRoundRobin, hc, List.find?_map, Option.map_eq_some_iff] at h
  obtain ⟨offset, ho, rfl⟩ := h
  obtain ⟨-, hmem, hbefore⟩ := List.find?_range'_eq_some.1 ho
  rw [roundOf_roundRobinIndex hmem]
  by_contra hlt
  have hround := List.mem_range'_1.1 (roundOf_mem c j)
  have := hbefore (roundOf c j) hround.1 (by omega)
  rw [Function.comp_apply, roundRobinIndex_roundOf, hj] at this
  cases this

end Scan

/-! ## The current thread between ticks -/

/-- The thread that a tick selects. -/
def tickSelects (esp : Word) (s : Scheduler) : Option (Fin threadMax) :=
  findNextThread s.schedulerPolicy (saveCurrent esp s.toThreads)

section Current

variable {s : Scheduler} {c next u : Fin threadMax}

theorem saveCurrent_currentThread (esp : Word) (s : Threads) : (saveCurrent esp s).currentThread = s.currentThread := by
  unfold saveCurrent
  split
  · rfl
  · split <;> rfl

theorem schedulerTick_selects {esp : Word} (h : tickSelects esp s = some next) :
    (schedulerTick esp s).2.currentThread = some next := by
  have hready := findNextThread_ready h
  have hget : threadGet (saveCurrent esp s.toThreads) next = some ((saveCurrent esp s.toThreads).threads next) :=
    if_neg fun hu => by rw [Threads.states, hu] at hready; cases hready
  rw [tickSelects] at h
  simp only [schedulerTick, h, hget, switchTo, Threads.currentThread_recordRun, Threads.currentThread_setState,
    Threads.currentThread_setCurrent]

theorem unblockAt_currentThread (s : Threads) (i : Fin threadMax) :
    (unblockAt s i).currentThread = s.currentThread := by
  unfold unblockAt
  split <;> rfl

/-- Only a tick changes the current thread. -/
theorem schedStep_currentThread (base : Word) (s : Scheduler) {a : SchedAct} (ha : ∀ esp, a ≠ .tick esp) :
    (schedStep base s a).currentThread = s.currentThread := by
  cases a with
  | create entry =>
    simp only [schedStep, Scheduler.onThreads, threadCreate]
    split
    · rfl
    · split <;> rfl
  | blockCurrent =>
    simp only [schedStep, Scheduler.onThreads, threadBlockCurrent]
    split
    · rfl
    · split <;> rfl
  | exit =>
    simp only [schedStep, Scheduler.onThreads, threadExit]
    split <;> rfl
  | unblock index =>
    simp only [schedStep, Scheduler.onThreads, threadUnblock]
    split
    · exact unblockAt_currentThread ..
    · rfl
  | wake threadId =>
    simp only [schedStep, Scheduler.onThreads, threadWake]
    split
    · rfl
    · split
      · exact unblockAt_currentThread ..
      · rfl
  | wakeOne =>
    simp only [schedStep, Scheduler.onThreads, threadWakeOne]
    split <;> rfl
  | setPolicy policy =>
    simp only [schedStep, schedulerSetPolicy]
    split <;> rfl
  | tick esp => exact absurd rfl (ha esp)

/-- A tick under round robin that finds `u` ready and selects another thread. -/
structure PassesOver (esp : Word) (s : Scheduler) (u : Fin threadMax) : Prop where
  policy : s.schedulerPolicy = .roundRobin
  ready : isReady (saveCurrent esp s.toThreads) u = true
  other : tickSelects esp s ≠ some u

/-- A tick that passes over `u` brings the start of the scan nearer to it. -/
theorem PassesOver.approach {esp : Word} (h : PassesOver esp s u) (hc : s.currentThread = some c) :
    ∃ next, (schedulerTick esp s).2.currentThread = some next ∧ roundOf next u < roundOf c u := by
  obtain ⟨hpolicy, hready, hother⟩ := h
  cases hnext : tickSelects esp s with
  | none => exact absurd (isReady_iff.1 hready) (findNextThread_none hnext u)
  | some next =>
    refine ⟨next, schedulerTick_selects hnext, ?_⟩
    rw [tickSelects, hpolicy] at hnext
    have hle := findRoundRobin_first ((saveCurrent_currentThread esp s.toThreads).trans hc) hnext hready
    have hne : next ≠ u := by
      rintro rfl
      exact hother (by rw [tickSelects, hpolicy, hnext])
    have hround : roundOf c next ≠ roundOf c u := fun e =>
      hne (by rw [← roundRobinIndex_roundOf c next, e, roundRobinIndex_roundOf])
    have hpos := List.mem_range'_1.1 (roundOf_mem c next)
    have := roundOf_next (lt_of_le_of_ne hle hround)
    omega

end Current

/-! ## Runs -/

section Run

variable (base : Word) (s : Scheduler) (acts : List SchedAct)

/-- The state in which act `k` of the run happens. -/
def stateAt (k : Nat) : Scheduler := schedRun base s (acts.take k)

/-- Act `k` of the run is a tick, and it selects `t`. -/
def SelectsAt (k : Nat) (t : Fin threadMax) : Prop :=
  ∃ esp, acts[k]? = some (.tick esp) ∧ tickSelects esp (stateAt base s acts k) = some t

/-- If act `k` of the run is a tick, it passes over `u`. -/
def PassesOverAt (k : Nat) (u : Fin threadMax) : Prop :=
  ∀ esp, acts[k]? = some (.tick esp) → PassesOver esp (stateAt base s acts k) u

variable {base s acts}

theorem stateAt_succ {k : Nat} {a : SchedAct} (h : acts[k]? = some a) :
    stateAt base s acts (k + 1) = schedStep base (stateAt base s acts k) a := by
  rw [stateAt, List.take_add_one, h, Option.toList_some, schedRun_snoc]
  rfl

theorem stateAt_end {k : Nat} (h : acts[k]? = none) : stateAt base s acts (k + 1) = stateAt base s acts k := by
  rw [stateAt, List.take_add_one, h, Option.toList_none, List.append_nil]
  rfl

/-- Whatever happens while `u` is passed over, the start of the scan does not move away from it. -/
theorem approach {i n : Nat} {t u : Fin threadMax} (hi : (stateAt base s acts i).currentThread = some t)
    (h : ∀ k, i ≤ k → k < i + n → PassesOverAt base s acts k u) :
    ∃ c, (stateAt base s acts (i + n)).currentThread = some c ∧ roundOf c u ≤ roundOf t u := by
  induction n with
  | zero => exact ⟨t, hi, le_rfl⟩
  | succ n ih =>
    obtain ⟨c, hc, hle⟩ := ih fun k hk hlt => h k hk (by omega)
    rw [← Nat.add_assoc]
    cases ha : acts[i + n]? with
    | none =>
      rw [stateAt_end ha]
      exact ⟨c, hc, hle⟩
    | some a =>
      rw [stateAt_succ ha]
      by_cases htick : ∃ esp, a = .tick esp
      · obtain ⟨esp, rfl⟩ := htick
        obtain ⟨next, hnext, hlt⟩ := (h (i + n) (by omega) (by omega) esp ha).approach hc
        exact ⟨next, hnext, by omega⟩
      · rw [schedStep_currentThread base _ fun esp e => htick ⟨esp, e⟩]
        exact ⟨c, hc, hle⟩

end Run

/-- No thread is overtaken twice: whatever calls come between the ticks of a run, it has no two ticks
that select one thread such that another one is ready at every tick after the first up to the second,
all under round robin, and is selected at none of them. -/
theorem roundRobin_fair (base : Word) (s : Scheduler) (acts : List SchedAct) :
    ¬ ∃ i j t u, i < j ∧ u ≠ t ∧ SelectsAt base s acts i t ∧ SelectsAt base s acts j t ∧
      ∀ k, i < k → k ≤ j → PassesOverAt base s acts k u := by
  rintro ⟨i, j, t, u, hij, hut, ⟨esp, hi, hsel⟩, ⟨esp', hj, hsel'⟩, hpass⟩
  have hafter : (stateAt base s acts (i + 1)).currentThread = some t := by
    rw [stateAt_succ hi]
    exact schedulerTick_selects hsel
  obtain ⟨c, hc, hle⟩ := @approach base s acts (i + 1) (j - (i + 1)) t u hafter fun k hk hlt =>
    hpass k (by omega) (by omega)
  rw [Nat.add_sub_cancel' (by omega)] at hc
  -- the second tick comes nearer to `u` once more, but ends where the first one did
  obtain ⟨next, hnext, hlt⟩ := (hpass j hij le_rfl esp' hj).approach hc
  rw [schedulerTick_selects hsel'] at hnext
  cases hnext
  omega

end SpectreOS

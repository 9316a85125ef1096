/-
What the cleanup at a process's exit closes. A handle is a bare number that fs.c hands out again
once it is free, and `process_t` keeps the numbers: the cleanup is right as long as no process
registers more handles than its table holds, and no `fs_open` hands out a number that another
process still has in its table.
-/
import SpectreOS.Fs.Handles
import SpectreOS.Fs.Names
import SpectreOS.Proc.Process

namespace SpectreOS

open BlockIO Prog

/-! ## The cleanup -/

section Handles

variable {δ : Type} (D : Device δ Sector)

/-- The cleanup closes exactly the handles of the list. -/
theorem closeAll_handles {fds : List Int} (hfds : ∀ fd ∈ fds, ∃ k : Nat, k < 16 ∧ fd = k) (c : Conf FsMem δ) (k : Nat) :
    (System.closeAll D fds c).mem.handles k = if (k : Int) ∈ fds then .closed else c.mem.handles k := by
  induction fds generalizing c with
  | nil => simp [System.closeAll]
  | cons fd fds ih =>
    obtain ⟨j, hj, rfl⟩ := hfds fd List.mem_cons_self
    rw [System.closeAll, List.foldl_cons]
    refine (ih (fun fd h => hfds fd (List.mem_cons_of_mem _ h)) _).trans ?_
    have hrun := fsClose_run D (j : Int) c
    rw [if_pos (show 0 ≤ (j : Int) ∧ (j : Int) < 16 from ⟨by omega, by omega⟩), Int.toNat_natCast] at hrun
    rw [hrun]
    by_cases hk : k = j
    · subst hk
      simp
    · have hkj : (k : Int) ≠ j := by omega
      rw [Function.update_of_ne hk]
      simp [hkj]

end Handles

/-! ## Who is who -/

section Named

variable {δ : Type}

/-- Every process in the table has a pid and a thread of its own. -/
structure Named (s : System δ) : Prop where
  next : 0 < s.nextPid
  pid : ∀ i, (s.processes i).inUse = true → 0 < (s.processes i).pid ∧ (s.processes i).pid < s.nextPid
  pidInj : ∀ i j, (s.processes i).inUse = true → (s.processes j).inUse = true →
    (s.processes i).pid = (s.processes j).pid → i = j
  thread : ∀ i, (s.processes i).inUse = true → s.threads.states (s.processes i).threadIndex ≠ .unused
  threadInj : ∀ i j, (s.processes i).inUse = true → (s.processes j).inUse = true →
    (s.processes i).threadIndex = (s.processes j).threadIndex → i = j

/-- The parts of a system that `Named` is about. -/
theorem Named.congr {s s' : System δ} (h : Named s) (hnext : s'.nextPid = s.nextPid)
    (hproc : ∀ i, (s'.processes i).pid = (s.processes i).pid ∧
      (s'.processes i).threadIndex = (s.processes i).threadIndex ∧ (s'.processes i).inUse = (s.processes i).inUse)
    (hthreads : ∀ t, s.threads.states t ≠ .unused → s'.threads.states t ≠ .unused) : Named s' := by
  refine ⟨hnext ▸ h.next, fun i hi => ?_, fun i j hi hj he => ?_, fun i hi => ?_, fun i j hi hj he => ?_⟩
  · rw [(hproc i).2.2] at hi
    rw [(hproc i).1, hnext]
    exact h.pid i hi
  · rw [(hproc i).2.2] at hi
    rw [(hproc j).2.2] at hj
    rw [(hproc i).1, (hproc j).1] at he
    exact h.pidInj i j hi hj he
  · rw [(hproc i).2.2] at hi
    rw [(hproc i).2.1]
    exact hthreads _ (h.thread i hi)
  · rw [(hproc i).2.2] at hi
    rw [(hproc j).2.2] at hj
    rw [(hproc i).2.1, (hproc j).2.1] at he
    exact h.threadInj i j hi hj he

theorem find_unique {n : Nat} {p : Fin n → Bool} {i : Fin n} (hi : p i = true) (huniq : ∀ j, p j = true → j = i) :
    (List.finRange n).find? p = some i := by
  cases h : (List.finRange n).find? p with
  | none => exact absurd hi (by simpa using List.find?_eq_none.1 h i (List.mem_finRange i))
  | some j => rw [huniq j (List.find?_some h)]

theorem Named.findByPid {s : System δ} (h : Named s) {i : Fin processMax} (hi : (s.processes i).inUse = true) :
    s.processFindByPid (s.processes i).pid = some i := by
  unfold System.processFindByPid
  rw [if_neg (h.pid i hi).1.ne']
  refine find_unique (by simp [hi]) fun j hj => ?_
  simp only [Bool.and_eq_true, beq_iff_eq] at hj
  exact h.pidInj j i hj.1 hi hj.2

theorem Named.findByThreadIndex {s : System δ} (h : Named s) {i : Fin processMax}
    (hi : (s.processes i).inUse = true) : s.processFindByThreadIndex (s.processes i).threadIndex = some i := by
  refine find_unique (by simp [hi]) fun j hj => ?_
  simp only [Bool.and_eq_true, beq_iff_eq] at hj
  exact h.threadInj j i hj.1 hi hj.2

theorem states_demoteCurrent (s : Threads) (u : Fin threadMax) :
    (demoteCurrent s).states u =
      if s.states u = .running ∧ s.currentThread = some u then .ready else s.states u := by
  unfold demoteCurrent
  split
  · rename_i hc
    rw [if_neg (by simp [hc])]
  · rename_i c hc
    split
    · rename_i hrun
      rw [Threads.states_setState]
      by_cases huc : u = c
      · rw [huc, Function.update_self, if_pos ⟨hrun, hc⟩]
      · rw [Function.update_of_ne huc, if_neg fun h => huc (Option.some.inj (h.2.symm.trans hc))]
    · rename_i hrun
      rw [if_neg]
      rintro ⟨hu, he⟩
      rw [Option.some.inj (hc.symm.trans he)] at hrun
      exact hrun hu

theorem dispatch_spec {s s' : Threads} {t : Fin threadMax} (h : dispatch s t = some s') :
    s'.currentThread = some t ∧ ∀ u, s.states u ≠ .unused → s'.states u ≠ .unused := by
  unfold dispatch at h
  obtain ⟨-, h⟩ := Option.ite_none_right_eq_some.1 h
  cases h
  refine ⟨rfl, fun u hu => ?_⟩
  rw [Threads.states_setState]
  by_cases hut : u = t
  · rw [hut, Function.update_self]
    exact nofun
  · rw [Function.update_of_ne hut, Threads.states_setCurrent, states_demoteCurrent]
    split
    · exact nofun
    · exact hu

/-- A process that runs: everything but the thread table is as before, and the current thread is
its own. -/
theorem Named.resume {s s' : System δ} (h : Named s) {i : Fin processMax} (hs : s.resume i = some s') :
    (s.processes i).inUse = true ∧ s'.threads.currentThread = some (s.processes i).threadIndex ∧ Named s' ∧
      ∃ threads, s' = { s with threads } := by
  unfold System.resume at hs
  obtain ⟨hi, hs⟩ := Option.ite_none_right_eq_some.1 hs
  obtain ⟨threads, hd, rfl⟩ := Option.map_eq_some_iff.1 hs
  obtain ⟨hcur, hused⟩ := dispatch_spec hd
  exact ⟨hi, hcur, h.congr rfl (fun _ => ⟨rfl, rfl, rfl⟩) hused, threads, rfl⟩

end Named

/-! ## The cleanup -/

section Cleanup

variable {δ : Type} {D : Device δ Sector} {base trampoline : Word} {s s' : System δ}

/-- The handles in the processes' tables, while no process registers too many and no handle in
one process's table is handed to another. -/
structure Handled (s : System δ) : Prop where
  unborn : ∀ i, (s.processes i).inUse = false → (s.processes i).fds = [] ∧ s.passed i = []
  opened : ∀ fd i, s.owner fd = some i → fd < 16 ∧ 0 ≤ (s.fs.mem.handles fd).inode
  listed : ∀ i, ∀ fd ∈ s.passed i, fd ∈ (s.processes i).fds
  mine : ∀ i, ∀ fd ∈ (s.processes i).fds, ∃ k : Nat, k < 16 ∧ fd = k ∧ (s.owner k = none ∨ s.owner k = some i)

/-- A registration has room in the process's table, and an open does not answer a handle that
another process has in its table. -/
def Tidy (D : Device δ Sector) (s : System δ) : ProcAct → Prop
  | .register i _ => (s.processes i).fds.length < processMaxFds
  | .open i name => ∀ j, j ≠ i → ((fsOpen name).run D s.fs).1 ∉ (s.processes j).fds
  | _ => True

/-- The cleanup at the exit of process `i` closed every handle it passed to `process_register_fd`
and had not closed itself, and no handle that another process has open. -/
def CleanExit (s s' : System δ) (i : Fin processMax) : Prop :=
  (∀ fd ∈ s.passed i, (s'.fs.mem.handles fd.toNat).inode < 0) ∧
    ∀ fd j, s.owner fd = some j → j ≠ i → s'.fs.mem.handles fd = s.fs.mem.handles fd

theorem start_named (threads : Threads) (fs : Conf FsMem δ) : Named (System.start threads fs) :=
  ⟨one_pos, nofun, nofun, nofun, nofun⟩

theorem start_handled (threads : Threads) (fs : Conf FsMem δ) : Handled (System.start threads fs) :=
  ⟨fun _ _ => ⟨rfl, rfl⟩, nofun, nofun, nofun⟩

/-- `process_create` either leaves all as it is or takes a free slot and an unused thread. -/
theorem processCreate_cases (s : System δ) (entry : Word) (ppid : Nat) :
    s.processCreate base trampoline entry ppid = s ∨
      ∃ slot t threads, (s.processes slot).inUse = false ∧ s.threads.states t = .unused ∧
        threads.states = Function.update s.threads.states t .ready ∧
        s.processCreate base trampoline entry ppid =
          { s with
            threads
            processes := Function.update s.processes slot ⟨s.nextPid, ppid, t, entry, [], true⟩
            nextPid := s.nextPid + 1 } := by
  unfold System.processCreate
  split
  · exact .inl rfl
  split
  · exact .inl rfl
  rename_i slot hslot
  split
  · exact .inl rfl
  rename_i htr
  split
  · exact .inl rfl
  rename_i t ht
  refine .inr ⟨slot, t, _, by simpa using List.find?_some hslot, ?_, ?_, rfl⟩
  · have := List.find?_some ht
    simpa [Threads.states] using this
  · simp only [threadCreate, if_neg htr, ht]
    exact Threads.states_setThread ..

section Born

variable {slot : Fin processMax} {t : Fin threadMax} {threads : Threads}

/-- The new process has the next pid and a thread that no other process has. -/
theorem Named.born (h : Named s) (hfree : (s.processes slot).inUse = false) (hunused : s.threads.states t = .unused)
    (hstates : threads.states = Function.update s.threads.states t .ready) (entry : Word) (ppid : Nat) :
    Named { s with
      threads
      processes := Function.update s.processes slot ⟨s.nextPid, ppid, t, entry, [], true⟩
      nextPid := s.nextPid + 1 } := by
  have hused : ∀ u, s.threads.states u ≠ .unused → threads.states u ≠ .unused := by
    intro u hu
    have hut : u ≠ t := fun e => hu (e ▸ hunused)
    rwa [hstates, Function.update_of_ne hut]
  have hcase : ∀ i, i = slot ∨ i ≠ slot := fun i => em _
  refine ⟨Nat.succ_pos _, fun i hi => ?_, fun i j hi hj he => ?_, fun i hi => ?_, fun i j hi hj he => ?_⟩ <;>
    simp only at *
  · rcases hcase i with rfl | hne
    · simp [h.next]
    · rw [Function.update_of_ne hne] at hi ⊢
      have := h.pid i hi
      omega
  · rcases hcase i with rfl | hni <;> rcases hcase j with rfl | hnj
    · rfl
    · rw [Function.update_of_ne hnj] at hj he
      rw [Function.update_self] at he
      have := h.pid j hj
      simp only at he
      omega
    · rw [Function.update_of_ne hni] at hi he
      rw [Function.update_self] at he
      have := h.pid i hi
      simp only at he
      omega
    · rw [Function.update_of_ne hni] at hi he
      rw [Function.update_of_ne hnj] at hj he
      exact h.pidInj i j hi hj he
  · rcases hcase i with rfl | hne
    · rw [Function.update_self, hstates, Function.update_self]
      exact ThreadState.noConfusion
    · rw [Function.update_of_ne hne] at hi ⊢
      exact hused _ (h.thread i hi)
  · rcases hcase i with rfl | hni <;> rcases hcase j with rfl | hnj
    · rfl
    · rw [Function.update_of_ne hnj] at hj he
      rw [Function.update_self] at he
      exact absurd (he ▸ hunused) (h.thread j hj)
    · rw [Function.update_of_ne hni] at hi he
      rw [Function.update_self] at he
      exact absurd (he ▸ hunused) (h.thread i hi)
    · rw [Function.update_of_ne hni] at hi he
      rw [Function.update_of_ne hnj] at hj he
      exact h.threadInj i j hi hj he

/-- It has no handles. -/
theorem Handled.born (h : Handled s) (hfree : (s.processes slot).inUse = false) (pid ppid : Nat)
    (entry : Word) (nextPid : Nat) :
    Handled { s with
      threads
      processes := Function.update s.processes slot ⟨pid, ppid, t, entry, [], true⟩
      nextPid } := by
  refine ⟨fun i hi => ?_, h.opened, fun i fd hfd => ?_, fun i fd hfd => ?_⟩ <;> simp only at * <;>
    rcases em (i = slot) with rfl | hne
  · rw [Function.update_self] at hi
    cases hi
  · rw [Function.update_of_ne hne] at hi ⊢
    exact h.unborn i hi
  · rw [(h.unborn i hfree).2] at hfd
    cases hfd
  · rw [Function.update_of_ne hne]
    exact h.listed i fd hfd
  · rw [Function.update_self] at hfd
    cases hfd
  · rw [Function.update_of_ne hne] at hfd
    exact h.mine i fd hfd

end Born

theorem processCreate_kept (hn : Named s) (hh : Handled s) (entry : Word) (ppid : Nat) :
    Named (s.processCreate base trampoline entry ppid) ∧ Handled (s.processCreate base trampoline entry ppid) := by
  obtain hsame | ⟨slot, t, threads, hfree, hunused, hstates, hnew⟩ :=
    @processCreate_cases _ base trampoline s entry ppid
  · rw [hsame]
    exact ⟨hn, hh⟩
  · rw [hnew]
    exact ⟨hn.born hfree hunused hstates entry ppid, hh.born hfree ..⟩

/-- Only the handle table, the owners and the tables of handles matter to `Handled`. -/
theorem Handled.threads (h : Handled s) (threads : Threads) : Handled { s with threads } :=
  ⟨h.unborn, h.opened, h.listed, h.mine⟩

/-- An exit closes the handles of the process's table. -/
theorem processTrampoline_spec (hn : Named s) {i : Fin processMax} (hi : (s.processes i).inUse = true)
    (hc : s.threads.currentThread = some (s.processes i).threadIndex) :
    s.processTrampoline D =
      { s.setProcess i { s.processes i with fds := [] } with
        fs := System.closeAll D (s.processes i).fds s.fs
        threads := threadExit s.threads } := by
  unfold System.processTrampoline
  rw [hc, Option.bind_some, hn.findByThreadIndex hi]

theorem processRegisterFd_spec (hn : Named s) {i : Fin processMax} (hi : (s.processes i).inUse = true)
    (hc : s.threads.currentThread = some (s.processes i).threadIndex)
    (hroom : (s.processes i).fds.length < processMaxFds) (fd : Int) :
    s.processRegisterFd s.processGetCurrentPid fd =
      s.setProcess i { s.processes i with fds := (s.processes i).fds ++ [fd] } := by
  have hpid : s.processGetCurrentPid = (s.processes i).pid := by
    unfold System.processGetCurrentPid
    rw [hc]
    simp only
    rw [hn.findByThreadIndex hi]
  unfold System.processRegisterFd
  rw [hpid, hn.findByPid hi]
  exact if_neg (by omega)

theorem threadExit_used {s : Threads} {t : Fin threadMax} (h : s.states t ≠ .unused) :
    (threadExit s).states t ≠ .unused := by
  unfold threadExit
  split
  · exact h
  · rename_i c _
    rw [Threads.states_setState]
    by_cases htc : t = c
    · rw [htc, Function.update_self]
      exact nofun
    · rwa [Function.update_of_ne htc]

/-- Replacing the handles of a process changes nobody's identity. -/
theorem Named.setFds (hn : Named s) (i : Fin processMax) (fds : List Int) :
    Named (s.setProcess i { s.processes i with fds }) := by
  refine hn.congr rfl (fun j => ?_) fun _ h => h
  simp only [System.setProcess]
  by_cases hji : j = i
  · rw [hji, Function.update_self]
    exact ⟨rfl, rfl, rfl⟩
  · rw [Function.update_of_ne hji]
    exact ⟨rfl, rfl, rfl⟩

/-! ### The calls of a process -/

section Calls

variable {i : Fin processMax} {fd : Nat}

/-- An opened handle is in no other process's table. -/
theorem Handled.open (h : Handled s) {name : CStr}
    (hother : ∀ j, j ≠ i → ((fsOpen name).run D s.fs).1 ∉ (s.processes j).fds) :
    Handled { s with
      fs := ((fsOpen name).run D s.fs).2
      owner := if 0 ≤ ((fsOpen name).run D s.fs).1 then
        Function.update s.owner ((fsOpen name).run D s.fs).1.toNat (some i) else s.owner } := by
  rcases fsOpen_run D name s.fs with ⟨hret, hmem⟩ | ⟨fd, hfd, inode, hret, hfree, hpos, hmem⟩
  · refine ⟨h.unborn, fun k j hk => ?_, h.listed, fun j k hk => ?_⟩ <;>
      simp only [hret, hmem, if_neg (show ¬ (0 : Int) ≤ -1 by decide)] at *
    · exact h.opened k j hk
    · exact h.mine j k hk
  · rw [hret] at hother
    refine ⟨h.unborn, fun k j hk => ?_, h.listed, fun j k hk => ?_⟩ <;>
      simp only [hret, hmem, if_pos (show (0 : Int) ≤ (fd : Int) by omega), Int.toNat_natCast] at *
    · by_cases hkf : k = fd
      · subst hkf
        exact ⟨hfd, by simp [setHandle, hpos]⟩
      · rw [Function.update_of_ne hkf] at hk
        have := h.opened k j hk
        simpa [setHandle, Function.update_of_ne hkf] using this
    · obtain ⟨n, hn16, rfl, hown⟩ := h.mine j k hk
      refine ⟨n, hn16, rfl, ?_⟩
      by_cases hnf : n = fd
      · subst hnf
        rw [Function.update_self]
        by_cases hji : j = i
        · exact Or.inr (by rw [hji])
        · exact absurd hk (hother j hji)
      · rwa [Function.update_of_ne hnf]

/-- A handle the process has open comes into its table. -/
theorem Handled.register (h : Handled s) (hi : (s.processes i).inUse = true) (hown : s.owner fd = some i) :
    Handled { s.setProcess i { s.processes i with fds := (s.processes i).fds ++ [(fd : Int)] } with
      passed := Function.update s.passed i ((fd : Int) :: s.passed i) } := by
  refine ⟨fun j hj => ?_, h.opened, fun j k hk => ?_, fun j k hk => ?_⟩ <;> simp only [System.setProcess] at * <;>
    by_cases hji : j = i
  · subst hji
    rw [Function.update_self] at hj
    exact absurd hi (by simpa using hj)
  · rw [Function.update_of_ne hji] at hj ⊢
    rw [Function.update_of_ne hji]
    exact h.unborn j hj
  · subst hji
    rw [Function.update_self] at hk ⊢
    rcases List.mem_cons.1 hk with rfl | hk
    · simp
    · exact List.mem_append_left _ (h.listed j k hk)
  · rw [Function.update_of_ne hji] at hk ⊢
    exact h.listed j k hk
  · subst hji
    rw [Function.update_self] at hk
    rcases List.mem_append.1 hk with hk | hk
    · exact h.mine j k hk
    · rw [List.mem_singleton.1 hk]
      exact ⟨fd, (h.opened fd j hown).1, rfl, Or.inr hown⟩
  · rw [Function.update_of_ne hji] at hk
    exact h.mine j k hk

/-- A handle the process closes is nobody's after that; its table may keep the number. -/
theorem Handled.close (h : Handled s) (hi : (s.processes i).inUse = true) (hown : s.owner fd = some i) :
    Handled { s with
      fs := ((fsClose fd).run D s.fs).2
      owner := Function.update s.owner fd none
      passed := Function.update s.passed i ((s.passed i).filter (· ≠ (fd : Int))) } := by
  have hrun := fsClose_run D (fd : Int) s.fs
  rw [if_pos (by have := (h.opened fd i hown).1; omega), Int.toNat_natCast] at hrun
  refine ⟨fun j hj => ?_, fun k j hk => ?_, fun j k hk => ?_, fun j k hk => ?_⟩ <;> simp only [hrun] at *
  · obtain ⟨h1, h2⟩ := h.unborn j hj
    have hji : j ≠ i := fun e => by rw [e, hi] at hj; cases hj
    exact ⟨h1, by rw [Function.update_of_ne hji, h2]⟩
  · by_cases hkf : k = fd
    · rw [hkf, Function.update_self] at hk
      cases hk
    · rw [Function.update_of_ne hkf] at hk ⊢
      exact h.opened k j hk
  · by_cases hji : j = i
    · subst hji
      rw [Function.update_self] at hk
      exact h.listed j k (List.mem_of_mem_filter hk)
    · rw [Function.update_of_ne hji] at hk
      exact h.listed j k hk
  · obtain ⟨n, hn16, rfl, hown'⟩ := h.mine j k hk
    refine ⟨n, hn16, rfl, ?_⟩
    by_cases hnf : n = fd
    · exact Or.inl (by rw [hnf, Function.update_self])
    · rwa [Function.update_of_ne hnf]

/-- What an exit leaves in the handle table. -/
theorem Handled.closeAll (h : Handled s) (i : Fin processMax) (k : Nat) :
    (System.closeAll D (s.processes i).fds s.fs).mem.handles k =
      if (k : Int) ∈ (s.processes i).fds then .closed else s.fs.mem.handles k :=
  closeAll_handles D (fun fd hfd => by
    obtain ⟨k, hk, he, -⟩ := h.mine i fd hfd
    exact ⟨k, hk, he⟩) s.fs k

/-- The closed handles are nobody's, and the table of the process is empty. -/
theorem Handled.exit (h : Handled s) (hi : (s.processes i).inUse = true) (threads : Threads) :
    Handled { s.setProcess i { s.processes i with fds := [] } with
      fs := System.closeAll D (s.processes i).fds s.fs
      threads
      owner := fun fd => if (fd : Int) ∈ (s.processes i).fds then none else s.owner fd
      passed := Function.update s.passed i [] } := by
  refine ⟨fun j hj => ?_, fun k j hk => ?_, fun j k hk => ?_, fun j k hk => ?_⟩ <;>
    simp only [System.setProcess, h.closeAll] at *
  · have hji : j ≠ i := by
      rintro rfl
      rw [Function.update_self] at hj
      exact absurd hi (by simpa using hj)
    rw [Function.update_of_ne hji] at hj ⊢
    rw [Function.update_of_ne hji]
    exact h.unborn j hj
  · split at hk
    · cases hk
    · rename_i hnot
      rw [if_neg hnot]
      exact h.opened k j hk
  · by_cases hji : j = i
    · rw [hji, Function.update_self] at hk
      cases hk
    · rw [Function.update_of_ne hji] at hk ⊢
      exact h.listed j k hk
  · by_cases hji : j = i
    · rw [hji, Function.update_self] at hk
      cases hk
    · rw [Function.update_of_ne hji] at hk
      obtain ⟨n, hn16, rfl, hown⟩ := h.mine j k hk
      refine ⟨n, hn16, rfl, ?_⟩
      split
      · exact Or.inl rfl
      · exact hown

/-- What a process passed and did not close is in its table, and what is there is not another's. -/
theorem Handled.cleanExit (h : Handled s) (hfs : s'.fs = System.closeAll D (s.processes i).fds s.fs) :
    CleanExit s s' i := by
  refine ⟨fun fd hfd => ?_, fun fd j hown hji => ?_⟩ <;> rw [hfs, h.closeAll]
  · have hin := h.listed i fd hfd
    obtain ⟨k, hk, rfl, -⟩ := h.mine i fd hin
    rw [Int.toNat_natCast, if_pos hin]
    decide
  · rw [if_neg]
    intro hin
    obtain ⟨k, hk, he, hmine⟩ := h.mine i fd hin
    have hkf : fd = k := by omega
    rw [hkf] at hown
    rcases hmine with hnone | hsome
    · rw [hnone] at hown
      cases hown
    · exact hji (Option.some.inj (hown.symm.trans hsome))

end Calls

/-- A tidy step keeps the invariants, and if it is an exit it is clean. -/
theorem procStep_kept {a : ProcAct} (hn : Named s) (hh : Handled s) (ha : Tidy D s a)
    (hs : procStep D base trampoline s a = some s') :
    (Named s' ∧ Handled s') ∧ ∀ i, a = .exit i → CleanExit s s' i := by
  cases a with
  | create entry ppid =>
    cases hs
    exact ⟨processCreate_kept hn hh entry ppid, nofun⟩
  | «open» i name =>
    obtain ⟨u, hu, hs⟩ := Option.map_eq_some_iff.1 hs
    obtain ⟨hi, hcur, hnu, threads, rfl⟩ := hn.resume hu
    subst hs
    exact ⟨⟨hnu.congr rfl (fun _ => ⟨rfl, rfl, rfl⟩) fun _ h => h, (hh.threads threads).open ha⟩, nofun⟩
  | register i fd =>
    obtain ⟨hown, hs⟩ := Option.ite_none_right_eq_some.1 hs
    obtain ⟨u, hu, hs⟩ := Option.map_eq_some_iff.1 hs
    obtain ⟨hi, hcur, hnu, threads, rfl⟩ := hn.resume hu
    subst hs
    rw [processRegisterFd_spec hnu hi hcur ha]
    exact ⟨⟨(hnu.setFds i _).congr rfl (fun _ => ⟨rfl, rfl, rfl⟩) fun _ h => h,
      (hh.threads threads).register hi hown⟩, nofun⟩
  | close i fd =>
    obtain ⟨hown, hs⟩ := Option.ite_none_right_eq_some.1 hs
    obtain ⟨u, hu, hs⟩ := Option.map_eq_some_iff.1 hs
    obtain ⟨hi, hcur, hnu, threads, rfl⟩ := hn.resume hu
    subst hs
    exact ⟨⟨hnu.congr rfl (fun _ => ⟨rfl, rfl, rfl⟩) fun _ h => h, (hh.threads threads).close hi hown⟩, nofun⟩
  | exit i =>
    obtain ⟨u, hu, hs⟩ := Option.map_eq_some_iff.1 hs
    obtain ⟨hi, hcur, hnu, threads, rfl⟩ := hn.resume hu
    subst hs
    rw [processTrampoline_spec hnu hi hcur]
    refine ⟨⟨(hnu.setFds i []).congr rfl (fun _ => ⟨rfl, rfl, rfl⟩) fun _ h => threadExit_used h,
      (hh.threads threads).exit hi _⟩, ?_⟩
    rintro _ ⟨rfl⟩
    exact hh.cleanExit rfl

/-- In every run in which no process registers a fifth handle and no `fs_open` answers a handle that
another process still has in its table, every exit is clean. -/
theorem processExit_clean (D : Device δ Sector) (base trampoline : Word) (threads : Threads) (fs : Conf FsMem δ)
    {acts : List ProcAct} {s s' : System δ} {i : Fin processMax}
    (hok : Trace.Along (procStep D base trampoline) (Tidy D) (System.start threads fs) acts)
    (h : Trace.exec (procStep D base trampoline) (System.start threads fs) acts = some s)
    (hexit : procStep D base trampoline s (.exit i) = some s') : CleanExit s s' i := by
  obtain ⟨hn, hh⟩ := Trace.along_invariant (P := fun s => Named s ∧ Handled s)
    (fun s a s' hs ha hstep => (procStep_kept hs.1 hs.2 ha hstep).1)
    ⟨start_named threads fs, start_handled threads fs⟩ hok h
  have htidy : Tidy D s (.exit i) := trivial
  exact (procStep_kept hn hh htidy hexit).2 i rfl

end Cleanup

/-! ## A handle that is handed on -/

section Reuse

variable {cp : Primitives} {N : Nat} {name : CStr} {fs : Conf FsMem Machine}

/-- A mounted filesystem whose only file is `name`, with the first handle free or not. -/
structure OneFile (cp : Primitives) (N : Nat) (name : CStr) (fs : Conf FsMem Machine) : Prop where
  live : Live cp N false false fs
  ready : fs.mem.filesystemReady = true
  valid : validName name = true
  entry : ∃ slot < slotCount, entryAt (logicalDisk cp fs.dev) slot = newEntry name 1 ∧
    ∀ j < slotCount, j ≠ slot → (entryAt (logicalDisk cp fs.dev) j).used = 0

theorem Vacant.oneFile (hv : Vacant (logicalDisk cp fs.dev) fs.mem) (h : Live cp N false false fs)
    (hn : validName name = true) :
    OneFile cp N name ((Call.create name).prog.run (fsDisk cp) fs).2 ∧
      ((Call.create name).prog.run (fsDisk cp) fs).2.mem.handles = fs.mem.handles := by
  obtain ⟨⟨-, heff⟩, hlive⟩ := h.call (.create name)
  obtain ⟨hm, slot, hs, he, ho⟩ := hv.create hn heff
  exact ⟨⟨hlive, by rw [hm]; exact hv.ready, hn, slot, hs, he, ho⟩, by rw [hm]; rfl⟩

theorem OneFile.opens (h : OneFile cp N name fs) (hfree : (fs.mem.handles 0).inode < 0) :
    ((fsOpen name).run (fsDisk cp) fs).1 = 0 ∧ OneFile cp N name ((fsOpen name).run (fsDisk cp) fs).2 ∧
      ((fsOpen name).run (fsDisk cp) fs).2.mem.handles 0 = ⟨1, 0⟩ := by
  obtain ⟨slot, hs, he, ho⟩ := h.entry
  obtain ⟨⟨hd, hret, heff⟩, hlive⟩ := h.live.call (.open name)
  obtain ⟨hm, hres⟩ := open_only hs he ho h.ready h.valid hfree heff
  have hrun : (Call.open name).prog.run (fsDisk cp) fs =
      (⟨((fsOpen name).run (fsDisk cp) fs).1, []⟩, ((fsOpen name).run (fsDisk cp) fs).2) := by
    simp [Call.prog]
  rw [hrun] at hd hm hres hlive
  simp only at hd hm hres hlive
  refine ⟨hres, ⟨hlive, by rw [hm]; exact h.ready, h.valid, slot, hs, by rw [hd]; exact he, by rw [hd]; exact ho⟩, ?_⟩
  simp [hm, setHandle]

theorem OneFile.closes (h : OneFile cp N name fs) :
    OneFile cp N name ((fsClose 0).run (fsDisk cp) fs).2 ∧
      (((fsClose 0).run (fsDisk cp) fs).2.mem.handles 0).inode < 0 := by
  obtain ⟨slot, hs, he, ho⟩ := h.entry
  obtain ⟨⟨hd, -, -, hm⟩, hlive⟩ := h.live.call (.close 0)
  have hrun : (Call.close 0).prog.run (fsDisk cp) fs =
      (⟨((fsClose 0).run (fsDisk cp) fs).1, []⟩, ((fsClose 0).run (fsDisk cp) fs).2) := by
    simp [Call.prog]
  rw [hrun] at hd hm hlive
  simp only at hd hm hlive
  refine ⟨⟨hlive, by rw [hm]; exact h.ready, h.valid, slot, hs, by rw [hd]; exact he, by rw [hd]; exact ho⟩, ?_⟩
  rw [fsClose_run, if_pos (by decide)]
  exact (by decide : (Handle.closed).inode < 0)

/-- A thread that the scheduler can give the processor to. -/
def Threads.Runs (s : Threads) (t : Fin threadMax) : Prop :=
  s.states t = .ready ∨ s.states t = .running ∧ s.currentThread = some t

theorem dispatch_runs {s : Threads} {t : Fin threadMax} (h : s.Runs t) :
    ∃ s', dispatch s t = some s' ∧ ∀ u, s.Runs u → s'.Runs u := by
  have hready : ∀ u, s.Runs u → (demoteCurrent s).states u = .ready := by
    rintro u (hu | hu)
    · rw [states_demoteCurrent, if_neg (by simp [hu]), hu]
    · rw [states_demoteCurrent, if_pos hu]
  refine ⟨_, if_pos (hready t h), fun u hu => ?_⟩
  by_cases hut : u = t
  · subst hut
    exact Or.inr ⟨by rw [Threads.states_setState, Function.update_self], rfl⟩
  · exact Or.inl (by rw [Threads.states_setState, Function.update_of_ne hut]; exact hready u hu)

section Steps

variable {δ : Type} {D : Device δ Sector} {base trampoline : Word} {s : System δ} {i : Fin processMax}

/-- A process that the scheduler can resume. -/
def System.Runs (s : System δ) (i : Fin processMax) : Prop :=
  (s.processes i).inUse = true ∧ s.threads.Runs (s.processes i).threadIndex

/-- A process that can run is resumed, with every other one still able to run. -/
theorem Named.resume_runs (hn : Named s) (h : s.Runs i) :
    ∃ threads, s.resume i = some { s with threads } ∧ Named { s with threads } ∧
      threads.currentThread = some (s.processes i).threadIndex ∧ ∀ u, s.threads.Runs u → threads.Runs u := by
  obtain ⟨threads, hd, hruns⟩ := dispatch_runs h.2
  have hres : s.resume i = some { s with threads } := by simp only [System.resume, if_pos h.1, hd, Option.map_some]
  obtain ⟨-, hcur, hnu, -⟩ := hn.resume hres
  exact ⟨threads, hres, hnu, hcur, hruns⟩

/-- What a process's own steps leave of the others: they keep their names and can still run. -/
structure Onward (s s' : System δ) : Prop where
  named : Named s'
  runs : ∀ j, s.Runs j → s'.Runs j

theorem step_open (hn : Named s) (h : s.Runs i) (name : CStr) :
    ∃ s', procStep D base trampoline s (.open i name) = some s' ∧ Onward s s' ∧ s'.processes = s.processes ∧
      s'.fs = ((fsOpen name).run D s.fs).2 ∧ s'.owner = if 0 ≤ ((fsOpen name).run D s.fs).1 then
        Function.update s.owner ((fsOpen name).run D s.fs).1.toNat (some i) else s.owner := by
  obtain ⟨threads, hres, hnu, -, hruns⟩ := hn.resume_runs h
  simp only [procStep, hres, Option.map_some]
  refine ⟨_, rfl, ⟨?_, fun j hj => ⟨hj.1, hruns _ hj.2⟩⟩, rfl, rfl, rfl⟩
  exact hnu.congr rfl (fun _ => ⟨rfl, rfl, rfl⟩) fun _ h => h

theorem step_register (hn : Named s) (h : s.Runs i) {fd : Nat} (hown : s.owner fd = some i)
    (hroom : (s.processes i).fds.length < processMaxFds) :
    ∃ s', procStep D base trampoline s (.register i fd) = some s' ∧ Onward s s' ∧
      s'.processes = Function.update s.processes i { s.processes i with fds := (s.processes i).fds ++ [(fd : Int)] } ∧
      s'.fs = s.fs ∧ s'.owner = s.owner ∧ s'.passed = Function.update s.passed i ((fd : Int) :: s.passed i) := by
  obtain ⟨threads, hres, hnu, hcur, hruns⟩ := hn.resume_runs h
  simp only [procStep, if_pos hown, hres, Option.map_some]
  rw [processRegisterFd_spec hnu h.1 hcur hroom]
  refine ⟨_, rfl, ⟨(hnu.setFds i _).congr rfl (fun _ => ⟨rfl, rfl, rfl⟩) fun _ h => h, fun j hj => ?_⟩, rfl, rfl, rfl,
    rfl⟩
  have hj' : ({ s with threads } : System δ).Runs j := ⟨hj.1, hruns _ hj.2⟩
  by_cases hji : j = i
  · subst hji
    simpa [System.Runs, System.setProcess] using hj'
  · simpa [System.Runs, System.setProcess, Function.update_of_ne hji] using hj'

theorem step_close (hn : Named s) (h : s.Runs i) {fd : Nat} (hown : s.owner fd = some i) :
    ∃ s', procStep D base trampoline s (.close i fd) = some s' ∧ Onward s s' ∧ s'.processes = s.processes ∧
      s'.fs = ((fsClose fd).run D s.fs).2 ∧ s'.owner = Function.update s.owner fd none := by
  obtain ⟨threads, hres, hnu, -, hruns⟩ := hn.resume_runs h
  simp only [procStep, if_pos hown, hres, Option.map_some]
  refine ⟨_, rfl, ⟨?_, fun j hj => ⟨hj.1, hruns _ hj.2⟩⟩, rfl, rfl, rfl⟩
  exact hnu.congr rfl (fun _ => ⟨rfl, rfl, rfl⟩) fun _ h => h

theorem step_exit (hn : Named s) (h : s.Runs i) :
    ∃ s', procStep D base trampoline s (.exit i) = some s' ∧ s'.fs = System.closeAll D (s.processes i).fds s.fs := by
  obtain ⟨threads, hres, hnu, hcur, -⟩ := hn.resume_runs h
  have hstep : ∃ s', procStep D base trampoline s (.exit i) = some s' ∧
      s'.fs = (({ s with threads } : System δ).processTrampoline D).fs := by
    simp only [procStep, hres, Option.map_some]
    exact ⟨_, rfl, rfl⟩
  rwa [processTrampoline_spec hnu h.1 hcur] at hstep

end Steps

/-- The thread table after boot. -/
def bootThreads : Threads := (schedBoot blankThreads).toThreads

/-- Two processes just created. -/
theorem two_processes (cp : Primitives) (fs : Conf FsMem Machine) :
    ∃ s, Trace.exec (procStep (fsDisk cp) 0 1) (System.start bootThreads fs) [.create 1 0, .create 1 0] = some s ∧
      Named s ∧ s.fs = fs ∧ s.owner = (fun _ => none) ∧ (∀ i, (s.processes i).fds = []) ∧ s.Runs 0 ∧ s.Runs 1 := by
  have hfds : ∀ s : System Machine, (∀ i, (s.processes i).fds = []) →
      ∀ i, ((s.processCreate 0 1 1 0).processes i).fds = [] := by
    intro s h i
    unfold System.processCreate
    rw [if_neg (by decide)]
    split
    · exact h i
    · rename_i slot _
      rw [if_neg (by decide)]
      split
      · exact h i
      · by_cases hi : i = slot
        · simp [hi]
        · simpa [Function.update_of_ne hi] using h i
  have h₁ := @processCreate_kept _ 0 1 _ (start_named bootThreads fs) (start_handled bootThreads fs) 1 0
  have h₂ := @processCreate_kept _ 0 1 _ h₁.1 h₁.2 1 0
  exact ⟨_, rfl, h₂.1, rfl, rfl, hfds _ (hfds _ fun _ => rfl), ⟨rfl, Or.inl rfl⟩, rfl, Or.inl rfl⟩

/-- A process opens the file, registers the handle and closes it; a second process opens the file
and is given the same handle; the exit of the first closes it. -/
theorem OneFile.reuse (h : OneFile cp N name fs) (hfree : (fs.mem.handles 0).inode < 0) :
    ∃ s s', Trace.exec (procStep (fsDisk cp) 0 1) (System.start bootThreads fs)
        [.create 1 0, .create 1 0, .open 0 name, .register 0 0, .close 0 0, .open 1 name] = some s ∧
      procStep (fsDisk cp) 0 1 s (.exit 0) = some s' ∧ s.owner 0 = some 1 ∧ s.fs.mem.handles 0 = ⟨1, 0⟩ ∧
      (s'.fs.mem.handles 0).inode < 0 := by
  obtain ⟨hfd₁, h₁, -⟩ := h.opens hfree
  obtain ⟨h₂, hfree₂⟩ := h₁.closes
  obtain ⟨hfd₃, -, hopen₃⟩ := h₂.opens hfree₂
  obtain ⟨s₂, e₂, hn₂, hfs₂, hown₂, hp₂, hr₀, hr₁⟩ := two_processes cp fs
  obtain ⟨s₃, e₃, ho₃, hp₃, hfs₃, hown₃⟩ := @step_open _ (fsDisk cp) 0 1 _ _ hn₂ hr₀ name
  rw [hfs₂] at hfs₃ hown₃
  rw [hfd₁, if_pos le_rfl, Int.toNat_zero] at hown₃
  obtain ⟨s₄, e₄, ho₄, hp₄, hfs₄, hown₄, -⟩ := @step_register _ (fsDisk cp) 0 1 _ _ ho₃.named (ho₃.runs 0 hr₀) 0
    (by rw [hown₃, Function.update_self]) (by rw [hp₃, hp₂ 0]; decide)
  obtain ⟨s₅, e₅, ho₅, hp₅, hfs₅, hown₅⟩ := @step_close _ (fsDisk cp) 0 1 _ _ ho₄.named (ho₄.runs 0 (ho₃.runs 0 hr₀)) 0
    (by rw [hown₄, hown₃, Function.update_self])
  rw [hfs₄, hfs₃] at hfs₅
  obtain ⟨s₆, e₆, ho₆, hp₆, hfs₆, hown₆⟩ := @step_open _ (fsDisk cp) 0 1 _ _ ho₅.named
    (ho₅.runs 1 (ho₄.runs 1 (ho₃.runs 1 hr₁))) name
  rw [hfs₅] at hfs₆ hown₆
  rw [Nat.cast_zero] at hfs₆ hown₆
  rw [hfd₃, if_pos le_rfl, Int.toNat_zero] at hown₆
  obtain ⟨s₇, e₇, hfs₇⟩ := @step_exit _ (fsDisk cp) 0 1 _ 0 ho₆.named
    (ho₆.runs 0 (ho₅.runs 0 (ho₄.runs 0 (ho₃.runs 0 hr₀))))
  have hfds : (s₆.processes 0).fds = [0] := by
    rw [hp₆, hp₅, hp₄, Function.update_self, hp₃, hp₂ 0]
    rfl
  refine ⟨s₆, s₇, ?_, e₇, by rw [hown₆, Function.update_self], by rw [hfs₆]; exact hopen₃, ?_⟩
  · have : ([.create 1 0, .create 1 0, .open 0 name, .register 0 0, .close 0 0, .open 1 name] : List ProcAct) =
        [.create 1 0, .create 1 0] ++ [.open 0 name, .register 0 0, .close 0 0, .open 1 name] := rfl
    rw [this, Trace.exec_append, e₂, Option.bind_some, Trace.exec_cons e₃, Trace.exec_cons e₄, Trace.exec_cons e₅,
      Trace.exec_cons e₆]
    rfl
  · have hmem : ∀ fd ∈ ([0] : List Int), ∃ k : Nat, k < 16 ∧ fd = k :=
      fun fd hfd => ⟨0, by omega, List.mem_singleton.1 hfd⟩
    rw [hfs₇, hfds, closeAll_handles _ hmem, if_pos (by simp)]
    decide

/-- A process opens the file and registers the handle: a run that is tidy. -/
theorem OneFile.single (h : OneFile cp N name fs) (hfree : (fs.mem.handles 0).inode < 0) :
    ∃ s s', Trace.Along (procStep (fsDisk cp) 0 1) (Tidy (fsDisk cp)) (System.start bootThreads fs)
        [.create 1 0, .create 1 0, .open 0 name, .register 0 0] ∧
      Trace.exec (procStep (fsDisk cp) 0 1) (System.start bootThreads fs)
        [.create 1 0, .create 1 0, .open 0 name, .register 0 0] = some s ∧
      procStep (fsDisk cp) 0 1 s (.exit 0) = some s' ∧ 0 ∈ s.passed 0 := by
  obtain ⟨hfd₁, -⟩ := h.opens hfree
  obtain ⟨s₂, e₂, hn₂, hfs₂, hown₂, hp₂, hr₀, hr₁⟩ := two_processes cp fs
  obtain ⟨s₃, e₃, ho₃, hp₃, hfs₃, hown₃⟩ := @step_open _ (fsDisk cp) 0 1 _ _ hn₂ hr₀ name
  rw [hfs₂] at hfs₃ hown₃
  rw [hfd₁, if_pos le_rfl, Int.toNat_zero] at hown₃
  have hroom : (s₃.processes 0).fds.length < processMaxFds := by
    rw [hp₃, hp₂ 0]
    decide
  obtain ⟨s₄, e₄, ho₄, -, -, -, hpassed₄⟩ := @step_register _ (fsDisk cp) 0 1 _ _ ho₃.named (ho₃.runs 0 hr₀) 0
    (by rw [hown₃, Function.update_self]) hroom
  obtain ⟨s₅, e₅, -⟩ := @step_exit _ (fsDisk cp) 0 1 _ 0 ho₄.named (ho₄.runs 0 (ho₃.runs 0 hr₀))
  have e₃' := Trace.exec_snoc.2 ⟨s₂, e₂, e₃⟩
  have hopen : Tidy (fsDisk cp) s₂ (.open 0 name) := fun j _ hj => by rw [hp₂ j] at hj; cases hj
  refine ⟨s₄, s₅, ?_, Trace.exec_snoc.2 ⟨s₃, e₃', e₄⟩, e₅, by rw [hpassed₄, Function.update_self]; simp⟩
  exact (Trace.along_snoc e₃').2 ⟨(Trace.along_snoc e₂).2 ⟨⟨trivial, fun _ _ => ⟨trivial, fun _ _ => trivial⟩⟩, hopen⟩,
    hroom⟩

end Reuse

section Boot

theorem Fresh.oneFile {cp : Primitives} {N : Nat} {s : Conf FsMem Machine} (hlive : Live cp N false false s)
    (hfresh : Fresh N (logicalDisk cp s.dev) s.mem) :
    OneFile cp N nameA ((Call.create nameA).prog.run (fsDisk cp) s).2 ∧
      (((Call.create nameA).prog.run (fsDisk cp) s).2.mem.handles 0).inode < 0 := by
  obtain ⟨hone, hhandles⟩ := hfresh.vacant.oneFile hlive (by decide : validName nameA = true)
  refine ⟨hone, ?_⟩
  rw [hhandles, hfresh.closed 0 (by omega)]
  decide

/-- A tidy run on a formatted disk of 200 sectors with one file. -/
theorem processExit_clean_boot :
    ∃ s s', procStep (fsDisk nullPrimitives) 0 1 s (.exit 0) = some s' ∧ 0 ∈ s.passed 0 ∧ CleanExit s s' 0 := by
  have h := fsFormat_boot nullPrimitives (fun _ => 0) (a := blankDrive 200) rfl (by decide) fun _ => rfl
  obtain ⟨hlive, hfresh⟩ := fsFormat_live (Registry.boot _) (.inr fun _ => rfl) h rfl
  obtain ⟨hone, hfree⟩ := Fresh.oneFile hlive hfresh
  obtain ⟨s, s', hok, hexec, hexit, hpassed⟩ := hone.single hfree
  exact ⟨s, s', hexit, hpassed, processExit_clean _ 0 1 bootThreads _ hok hexec hexit⟩

/-- The exit of a process closes a handle that another process has open. -/
theorem processExit_reuse_boot :
    let s₀ := (fsFormat (current nullPrimitives) (fun _ => 0) (bootConf (blankDrive 200))).2
    let fs := ((Call.create nameA).prog.run (fsDisk nullPrimitives) s₀).2
    ∃ s s', Trace.exec (procStep (fsDisk nullPrimitives) 0 1) (System.start bootThreads fs)
        [.create 1 0, .create 1 0, .open 0 nameA, .register 0 0, .close 0 0, .open 1 nameA] = some s ∧
      procStep (fsDisk nullPrimitives) 0 1 s (.exit 0) = some s' ∧ ¬ CleanExit s s' 0 := by
  have h := fsFormat_boot nullPrimitives (fun _ => 0) (a := blankDrive 200) rfl (by decide) fun _ => rfl
  obtain ⟨hlive, hfresh⟩ := fsFormat_live (Registry.boot _) (.inr fun _ => rfl) h rfl
  obtain ⟨hone, hfree⟩ := Fresh.oneFile hlive hfresh
  obtain ⟨s, s', hexec, hexit, hown, hopen, hclosed⟩ := hone.reuse hfree
  refine ⟨s, s', hexec, hexit, fun hclean => ?_⟩
  rw [hclean.2 0 1 hown (by decide), hopen] at hclosed
  exact absurd hclosed (by decide)

end Boot

end SpectreOS

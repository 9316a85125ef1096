/-
Power is lost between two sector writes of a run of calls, and the disk is mounted at the next boot.
No sector of a file is then free or another's, and none becomes so in the calls that follow, unless
the loss struck an `fs_delete` between its first write of the bitmap that freed one of the file's
sectors and its write of the inode (`crash_unshared_iff`).
-/
import SpectreOS.Fs.Crash

namespace SpectreOS

open BlockIO Prog

/-! ## Files that share nothing -/

/-- A sector of a file in the directory is marked used, and no other inode refers to it. -/
def Unshared (d : Nat → Sector) (m : FsMem) : Prop :=
  ∀ slot < slotCount, (entryAt d slot).used ≠ 0 → ∀ k, (m.inode (entryAt d slot).inode).direct k ≠ 0 →
    bitSet m ((m.inode (entryAt d slot).inode).direct k) = true ∧
      ∀ j l, (m.inode j).direct l = (m.inode (entryAt d slot).inode).direct k → j = (entryAt d slot).inode

theorem Owned.unshared {d : Nat → Sector} {m : FsMem} (h : Owned m) : Unshared d m :=
  fun _ _ _ k hne => ⟨(h.range _ k hne).2.2, fun j l e => (h.once j l _ k (by rw [e]; exact hne) e).1⟩

theorem Torn.shared {d : Nat → Sector} {m : FsMem} (h : Torn d) (hs : Synced d m) : ¬ Unshared d m := by
  obtain ⟨slot, hslot, hu, hlt, k, hne, ht, hbit⟩ := h
  rw [hs.inodes _ hlt] at hne ht hbit
  intro hun
  have := (hun slot hslot hu k hne).1
  rw [← hs.bitmap.storedBit ht, hbit] at this
  cases this

/-! ## Runs that lose their power -/

section

variable {δ : Type} {D : Device δ Sector}

theorem runCalls_cut_zero (calls : List Call) (m : FsMem) (d : δ) :
    (runCalls (powerCut D) calls ⟨m, 0, d⟩).2.dev = (0, d) := by
  induction calls generalizing m with
  | nil => rfl
  | cons call calls ih =>
    have hcall := run_cut_zero (D := D) call.prog m d
    simp only [runCalls]
    generalize (call.prog.run (powerCut D) ⟨m, 0, d⟩).2 = c at hcall ⊢
    obtain ⟨m', dev⟩ := c
    obtain rfl : dev = (0, d) := hcall
    exact ih m'

end

/-- The machine with power for `n` sector writes. -/
def withPower (s : Conf FsMem Machine) (n : Nat) : Conf FsMem (Nat × Machine) := ⟨s.mem, n, s.dev⟩

/-- The power fails during a call that it tears. -/
def TearsRun (cp : Primitives) (calls : List Call) (c : Conf FsMem (Nat × Machine)) : Prop :=
  ∃ before call after, calls = before ++ call :: after ∧
    let c' := (runCalls (powerCut (fsDisk cp)) before c).2
    Tears (logicalDisk cp c'.dev.2) c'.mem call c'.dev.1

section

variable {cp : Primitives} {N : Nat} {s : Conf FsMem Machine}

theorem not_tearsRun_nil (c : Conf FsMem (Nat × Machine)) : ¬ TearsRun cp [] c := by
  rintro ⟨before, call, after, he, -⟩
  simp at he

theorem tearsRun_cons {call : Call} {calls : List Call} {c : Conf FsMem (Nat × Machine)} :
    TearsRun cp (call :: calls) c ↔
      Tears (logicalDisk cp c.dev.2) c.mem call c.dev.1 ∨
      TearsRun cp calls (call.prog.run (powerCut (fsDisk cp)) c).2 := by
  constructor
  · rintro ⟨before, call', after, he, ht⟩
    cases before with
    | nil =>
      obtain ⟨rfl, -⟩ := List.cons.inj he
      exact .inl ht
    | cons call₁ before =>
      obtain ⟨rfl, rfl⟩ := List.cons.inj he
      exact .inr ⟨before, call', after, rfl, ht⟩
  · rintro (ht | ⟨before, call', after, rfl, ht⟩)
    · exact ⟨[], call, calls, rfl, ht⟩
    · exact ⟨call :: before, call', after, rfl, ht⟩

/-- Nothing is torn by calls without power. -/
theorem not_tearsRun_zero (calls : List Call) {c : Conf FsMem (Nat × Machine)} (hc : c.dev.1 = 0) :
    ¬ TearsRun cp calls c := by
  rintro ⟨before, call, after, -, ht⟩
  obtain ⟨m, n, dev⟩ := c
  obtain rfl : n = 0 := hc
  simp only [runCalls_cut_zero] at ht
  exact not_tears_zero call ht

/-- What the power leaves of one call. -/
theorem Visited.call_cut (h : Visited cp N s) (call : Call) (n : Nat) :
    let r := (call.prog.run (powerCut (fsDisk cp)) (withPower s n)).2
    (r.dev.1 = 0 → LeftBy N (logicalDisk cp s.dev) s.mem call n (logicalDisk cp r.dev.2)) ∧
      (0 < r.dev.1 → ¬ Tears (logicalDisk cp s.dev) s.mem call n ∧
        r = withPower (call.prog.run (fsDisk cp) s).2 r.dev.1) := by
  intro r
  have hh := h.healthy
  obtain ⟨slot, hsealed, hserves, -⟩ := hh.live
  obtain ⟨-, -, e3, e4⟩ := run_hom (sealed_hom cp slot).cut call.prog (withPower s n) hsealed
  have e3 : (r.dev.1, unsealed cp slot r.dev.2.ata) =
      (call.prog.run (powerCut ata) ⟨s.mem, n, unsealed cp slot s.dev.ata⟩).2.dev := e3
  have e4 : Sealed slot r.dev.2 := e4
  have hzero : LeftBy N (logicalDisk cp s.dev) s.mem call 0 (logicalDisk cp s.dev) :=
    .whole (not_tears_zero call) (hh.synced.recoverable hh.live.sound)
  obtain ⟨n', d', hn, hleft, hserves', hend⟩ := powerCut_sound (Serves.models N false false)
    (fun _ _ _ _ _ hJ hpost => by rw [hpost.1]; exact hJ) call.prog (c := ⟨s.mem, n, unsealed cp slot s.dev.ata⟩)
    (call_powered hh.working hh.synced call) hzero hserves
  rw [← e3] at hn hserves' hend
  have hd : logicalDisk cp r.dev.2 = d' := (e4.logicalDisk_eq cp).trans hserves'.disk
  have hn : n' + r.dev.1 = 0 + n := hn
  constructor
  · intro hlost
    rw [hd]
    obtain rfl : n' = n := by omega
    exact hleft
  · intro hpos
    refine ⟨fun ht => ?_, ?_⟩
    · have : n < n' := hend hpos n ht
      omega
    · have hrun := congrArg Prod.snd (run_cut_pos call.prog (c := withPower s n) hpos)
      show r = withPower (call.prog.run (fsDisk cp) ⟨s.mem, s.dev⟩).2 r.dev.1
      rw [show (call.prog.run (fsDisk cp) ⟨s.mem, s.dev⟩).2 = _ from hrun]
      rfl

/-- What the power leaves of a run of calls. -/
theorem runCalls_cut (h : Visited cp N s) (calls : List Call) (n : Nat) :
    let d := logicalDisk cp (runCalls (powerCut (fsDisk cp)) calls (withPower s n)).2.dev.2
    (TearsRun cp calls (withPower s n) → Torn d) ∧ (¬ TearsRun cp calls (withPower s n) → Recoverable N d) := by
  induction calls generalizing s n with
  | nil => exact ⟨fun ht => absurd ht (not_tearsRun_nil _), fun _ => h.healthy.synced.recoverable h.healthy.live.sound⟩
  | cons call calls ih =>
    obtain ⟨hlost, hleft⟩ := h.call_cut call n
    have hcons : TearsRun cp (call :: calls) (withPower s n) ↔ Tears (logicalDisk cp s.dev) s.mem call n ∨
        TearsRun cp calls (call.prog.run (powerCut (fsDisk cp)) (withPower s n)).2 := tearsRun_cons
    simp only [runCalls]
    rw [hcons]
    generalize (call.prog.run (powerCut (fsDisk cp)) (withPower s n)).2 = r at hlost hleft ⊢
    rcases Nat.eq_zero_or_pos r.dev.1 with hzero | hpos
    · have hdead : (runCalls (powerCut (fsDisk cp)) calls r).2.dev = (0, r.dev.2) := by
        rw [← runCalls_cut_zero calls r.mem r.dev.2, ← hzero]
      rw [hdead, or_iff_left (not_tearsRun_zero calls hzero)]
      exact hlost hzero
    · obtain ⟨hno, hrun⟩ := hleft hpos
      rw [or_iff_right hno, hrun]
      exact ih (.call call h) r.dev.1

/-! ## The next boot -/

theorem runCalls_cut_sparesZero (calls : List Call) (c : Conf FsMem (Nat × Ata)) :
    SparesZero c.dev.2 (runCalls (powerCut ata) calls c).2.dev.2 := by
  induction calls generalizing c with
  | nil => exact .refl _
  | cons call calls ih =>
    have hmodels := (sparing_sparesZero c.dev.2).cut (fun _ _ _ => trivial) fun _ _ _ _ => trivial
    obtain ⟨-, -, hcall⟩ := wp_sound hmodels call.prog ((call_sparing call).zero c.mem) (.refl c.dev.2)
    exact hcall.trans (ih _)

/-- The disk that is left has the superblock and can be mounted. -/
theorem Mountable.cut (h : Mountable cp N s) (calls : List Call) (n : Nat) :
    Mountable cp N ⟨s.mem, (SpectreOS.runCalls (powerCut (fsDisk cp)) calls (withPower s n)).2.dev.2⟩ := by
  obtain ⟨slot, hsealed, hk, hn⟩ := h.slot
  obtain ⟨-, -, e3, e4⟩ := runCalls_hom (sealed_hom cp slot).cut calls (withPower s n) hsealed
  obtain ⟨hzero, -⟩ := runCalls_cut_sparesZero calls ⟨s.mem, n, unsealed cp slot s.dev.ata⟩
  have e3 := congrArg Prod.snd e3
  rw [← show _ = (SpectreOS.runCalls (powerCut ata) calls ⟨s.mem, n, unsealed cp slot s.dev.ata⟩).2.dev.2
    from e3] at hzero
  refine ⟨h.lo, h.hi, h.superblock, ?_, slot, e4, hk, hn⟩
  -- unsealing sector 0 is injective
  have hinj := congrArg (cryptoXorSector cp slot 0) hzero
  rw [← h.sector]
  simpa only [unsealed, cryptoXorSector_involutive] using hinj

/-- The boot after a loss of power loads the tables that are on the disk. -/
theorem Visited.crash_init (h : Visited cp N s) (calls : List Call) (n : Nat) (material : Nat → Byte)
    {c : Conf FsMem Machine}
    (hc : Rebooted N (SpectreOS.runCalls (powerCut (fsDisk cp)) calls (withPower s n)).2.dev.2.ata.disk c) :
    let d := logicalDisk cp (SpectreOS.runCalls (powerCut (fsDisk cp)) calls (withPower s n)).2.dev.2
    let b := fsInit (current cp) material c
    b.1 = true ∧ logicalDisk cp b.2.dev = d ∧ Synced d b.2.mem ∧ (Recoverable N d → Live cp N false false b.2) := by
  intro d b
  have hmount := h.healthy.mountable.cut calls n
  obtain ⟨hok, -, hsb, -, hclosed, -, hview, hsync⟩ := hmount.init material hc
  refine ⟨hok, hview, hsync, ?_⟩
  rintro ⟨m, hS, hm⟩
  refine hmount.init_live material hc (hS.remount hm hsync ?_ hclosed)
  obtain ⟨material₀, hs⟩ := hmount.superblock
  rw [hS.total, hsb, hs]
  rfl

/-- A torn `fs_delete` leaves a file with a free sector. -/
theorem Visited.crash_shares (h : Visited cp N s) {calls : List Call} {n : Nat} (ht : TearsRun cp calls (withPower s n))
    (material : Nat → Byte) {c : Conf FsMem Machine}
    (hc : Rebooted N (SpectreOS.runCalls (powerCut (fsDisk cp)) calls (withPower s n)).2.dev.2.ata.disk c) :
    let b := fsInit (current cp) material c
    b.1 = true ∧ ¬ ∀ further, let t := (SpectreOS.runCalls (fsDisk cp) further b.2).2
      Unshared (logicalDisk cp t.dev) t.mem := by
  obtain ⟨hok, hview, hsync, -⟩ := h.crash_init calls n material hc
  refine ⟨hok, fun hall => ((runCalls_cut h calls n).1 ht).shared hsync ?_⟩
  have hnow : Unshared (logicalDisk cp (fsInit (current cp) material c).2.dev) _ := hall []
  rwa [hview] at hnow

/-- No sector of a file is free or another's after a loss of power, or becomes so, exactly when no
`fs_delete` is torn. -/
theorem crash_unshared_iff (h : Visited cp N s) (calls : List Call) (n : Nat) (material : Nat → Byte)
    {c : Conf FsMem Machine}
    (hc : Rebooted N (runCalls (powerCut (fsDisk cp)) calls (withPower s n)).2.dev.2.ata.disk c) :
    let b := fsInit (current cp) material c
    b.1 = true ∧ ((∀ further, let t := (runCalls (fsDisk cp) further b.2).2; Unshared (logicalDisk cp t.dev) t.mem) ↔
      ¬ TearsRun cp calls (withPower s n)) := by
  obtain ⟨hok, -, -, hlive⟩ := h.crash_init calls n material hc
  refine ⟨hok, fun hall ht => (h.crash_shares ht material hc).2 hall, fun hno further => ?_⟩
  obtain ⟨hlive', -⟩ := (hlive ((runCalls_cut h calls n).2 hno)).runCalls_all (J := fun _ _ => True)
    (fun _ _ _ _ _ _ _ _ _ => trivial) further trivial
  exact hlive'.sound.owned.unshared

/-- Power for so many writes of an `fs_delete` tears it. -/
theorem tearsRun_delete {name : CStr} {i n : Nat} {k : Fin 32} (hl : lookup (logicalDisk cp s.dev) name = some i)
    (hne : (s.mem.inode i).direct k ≠ 0) (hlt : (s.mem.inode i).direct k / 4096 < n) (hn : n ≤ 32) :
    TearsRun cp [.delete name] (withPower s n) := tearsRun_cons.2 (.inl ⟨name, i, rfl, hl, k, hne, hlt, hn⟩)

/-- A file with one byte on a new disk. -/
def writtenFile : List Call := [.create nameA, .open nameA, .write 0 (some [0x78])]

/-- It has a sector. -/
theorem Running.written_sector {s : Conf FsMem Machine}
    (h : Running cp 200 s (Files.run writtenFile (Files.empty 71)).2) :
    ∃ i, lookup (logicalDisk cp s.dev) nameA = some i ∧ (s.mem.inode i).direct 0 ≠ 0 := by
  obtain ⟨i, hi⟩ := h.refines.agrees.mem_iff.1 (show nameA ∈ (Files.run writtenFile (Files.empty 71)).2.names by decide)
  refine ⟨i, hi, ((h.refines.agrees.files nameA i hi).dense 0).2 ?_⟩
  decide

/-- Power is lost after the inode of a deleted file is saved. -/
theorem crash_unshared_boot :
    let s := (runCalls (fsDisk nullPrimitives) writtenFile
      (fsFormat (current nullPrimitives) (fun _ => 0) (bootConf (blankDrive 200))).2).2
    let b := fsInit (current nullPrimitives) (fun _ => 0)
      (rebooted (runCalls (powerCut (fsDisk nullPrimitives)) [.delete nameA] (withPower s 33)).2.dev.2.ata.disk)
    b.1 = true ∧ ∀ further, let t := (runCalls (fsDisk nullPrimitives) further b.2).2
      Unshared (logicalDisk nullPrimitives t.dev) t.mem := by
  obtain ⟨s₀, hformat, hreach⟩ := reached_boot nullPrimitives
  have hs₀ := congrArg Prod.snd hformat
  dsimp only at hs₀
  rw [hs₀]
  have hno : ¬ TearsRun nullPrimitives [.delete nameA]
    (withPower (runCalls (fsDisk nullPrimitives) writtenFile s₀).2 33) := by
    intro ht
    rcases tearsRun_cons.1 ht with ht | ht
    · exact not_tears_of_gt _ (show 32 < 33 by omega) ht
    · exact not_tearsRun_nil _ ht
  have hiff := crash_unshared_iff (hreach.visited.runCalls writtenFile) [.delete nameA] 33
    (fun _ => 0) (rebooted_boot _)
  exact hiff.imp_right fun hiff => hiff.2 hno

/-- Power is lost after the first write of an `fs_delete`: the file keeps a sector that is free. -/
theorem crash_shares_boot :
    let s := (runCalls (fsDisk nullPrimitives) writtenFile
      (fsFormat (current nullPrimitives) (fun _ => 0) (bootConf (blankDrive 200))).2).2
    let b := fsInit (current nullPrimitives) (fun _ => 0)
      (rebooted (runCalls (powerCut (fsDisk nullPrimitives)) [.delete nameA] (withPower s 1)).2.dev.2.ata.disk)
    b.1 = true ∧ ¬ ∀ further, let t := (runCalls (fsDisk nullPrimitives) further b.2).2
      Unshared (logicalDisk nullPrimitives t.dev) t.mem := by
  obtain ⟨s₀, hformat, hreach⟩ := reached_boot nullPrimitives
  have hs₀ := congrArg Prod.snd hformat
  dsimp only at hs₀
  rw [hs₀]
  have hrun := (hreach.running.calls writtenFile ⟨trivial, trivial, trivial, trivial⟩).2
  have hvisited := hreach.visited.runCalls writtenFile
  obtain ⟨i, hi, hne⟩ := hrun.written_sector
  have hlt := hvisited.healthy.live.sound.direct_lt i 0
  exact hvisited.crash_shares (tearsRun_delete hi hne (by omega) (by omega)) (fun _ => 0) (rebooted_boot _)

end

end SpectreOS

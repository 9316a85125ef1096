/-
The states of a machine on which no request has failed: a disk is formatted, any calls are made, and
it is mounted again at the next boot. The calls may use handles of files that have been deleted, so
a file may have holes.
-/
import SpectreOS.Fs.Contract
import SpectreOS.Fs.Stored

namespace SpectreOS

open BlockIO Prog

/-- What formatting, calls and mounts lead to while nothing fails. -/
inductive Visited (cp : Primitives) (N : Nat) : Conf FsMem Machine → Prop
  | format (material : Nat → Byte) (c : Conf FsMem Machine) : Registry c.dev → (∀ n, c.dev.ata.faults n = false) →
      min c.dev.ata.diskSectors 131072 = N → (fsFormat (current cp) material c).1 = true →
      Visited cp N (fsFormat (current cp) material c).2
  | call {s : Conf FsMem Machine} (call : Call) : Visited cp N s → Visited cp N (call.prog.run (fsDisk cp) s).2
  | init {s : Conf FsMem Machine} (material : Nat → Byte) (c : Conf FsMem Machine) : Visited cp N s →
      Rebooted N s.dev.ata.disk c → Visited cp N (fsInit (current cp) material c).2

/-- What holds in all of them. -/
structure Healthy (cp : Primitives) (N : Nat) (s : Conf FsMem Machine) : Prop where
  live : Live cp N false false s
  working : Working N (logicalDisk cp s.dev) s.mem
  synced : Synced (logicalDisk cp s.dev) s.mem
  mountable : Mountable cp N s

/-- No call changes whether the filesystem is mounted. -/
theorem CallEffect.ready {N : Nat} {r w : Bool} {d d' : Nat → Sector} {m m' : FsMem} {call : Call}
    {ret : Ret} (hS : Sound N d m) (hc : CallEffect r w d m call ret d' m') :
    m'.filesystemReady = m.filesystemReady := by
  cases call with
  | create name =>
    obtain ⟨-, hc⟩ := hc
    generalize ret.val = v at hc
    cases hc <;> rfl
  | delete name =>
    obtain ⟨-, hc⟩ := hc
    generalize ret.val = v at hc
    have hrelease : ∀ i, (releaseInode m i).filesystemReady = m.filesystemReady := fun i =>
      (releaseInode_spec m i hS.owned.totalHi).2.2.2.1
    cases hc with
    | refused => rfl
    | unsaved => exact hrelease _
    | kept => exact hrelease _
    | done => exact hrelease _
  | exist name => rw [hc.1]
  | «open» name =>
    obtain ⟨-, -, hc⟩ := hc
    generalize ret.val = v at hc
    cases hc <;> rfl
  | close fd =>
    obtain ⟨-, -, hc⟩ := hc
    split at hc
    · rw [hc.2]
      rfl
    · rw [hc.2]
  | read fd buffer size => exact hc.2.frame.2.2
  | write fd buffer => exact (hc.2.frame hS).2.2.2.1
  | list buffer size => rw [hc.1]

section

variable {cp : Primitives} {N : Nat} {s : Conf FsMem Machine}

theorem Visited.healthy (h : Visited cp N s) : Healthy cp N s := by
  induction h with
  | format material c hreg hf hN hok =>
    obtain ⟨hlive, hfresh⟩ := @fsFormat_live cp material N false false c hreg (.inr hf) hok hN
    exact ⟨hlive, ⟨hlive.sound, hfresh.vacant.linked, hfresh.ready⟩, hfresh.synced, .of_format material hreg hN hok⟩
  | call call _ ih =>
    obtain ⟨heff, hlive⟩ := ih.live.call call
    exact ⟨hlive, ih.working.step heff (heff.ready ih.live.sound), heff.synced ih.live.sound ih.synced,
      ih.mountable.calls ih.live.sound.owned [call]⟩
  | init material c _ hc ih =>
    obtain ⟨-, hmount, hsb, hready, hclosed, -, hview, hsync⟩ := ih.mountable.init material hc
    have hsound := ih.live.sound.remount ih.synced hsync (by rw [hsb]) hclosed
    refine ⟨ih.mountable.init_live material hc hsound, ⟨?_, ?_, hready⟩, ?_, hmount⟩
    · rw [hview]
      exact hsound
    · rw [hview]
      exact ih.working.linked.congr (fun _ _ => rfl) fun j => by rw [ih.synced.inode_eq hsync]
    · rw [hview]
      exact hsync

theorem Visited.runCalls (h : Visited cp N s) (calls : List Call) : Visited cp N (runCalls (fsDisk cp) calls s).2 := by
  induction calls generalizing s with
  | nil => exact h
  | cons call calls ih => exact ih (.call call h)

/-- The histories of the abstract model are among them. -/
theorem Reached.visited {a : Files} (h : Reached cp N s a) : Visited cp N s := by
  induction h with
  | format material c hreg hf hN hok => exact .format material c hreg hf hN hok
  | calls calls _ _ ih => exact ih.runCalls calls
  | init material c _ hreg ha hslot hroom hdisk hready hsize hf ih =>
    exact .init material c ih ⟨hreg, ha, hslot, hroom, hdisk, hready, hsize, hf⟩

end

theorem Refines.handleFree_iff {N : Nat} {d : Nat → Sector} {m : FsMem} {a : Files} (h : Refines N d m a) :
    HandleFree m ↔ ∃ fd < 16, a.handles fd = none :=
  exists_congr fun fd => and_congr_right fun hfd => (h.agrees.handles fd hfd).neg_iff

theorem Refines.not_handleFree {N : Nat} {d : Nat → Sector} {m : FsMem} {a : Files} (h : Refines N d m a)
    (hfull : ∀ fd < 16, a.handles fd ≠ none) : ¬ HandleFree m := by
  rw [h.handleFree_iff]
  rintro ⟨fd, hfd, hnone⟩
  exact hfull fd hfd hnone

/-- A file that holds one byte and is open on sixteen handles. -/
def openedFully : List Call := [.create nameA, .open nameA, .write 0 (some [0x78])] ++ List.replicate 15 (.open nameA)

theorem openedFully_files : nameA ∈ (Files.run openedFully (Files.empty 71)).2.names ∧
    nameB ∉ (Files.run openedFully (Files.empty 71)).2.names ∧
    (Files.run openedFully (Files.empty 71)).2.data nameA = [0x78] ∧
    ∀ fd < 16, (Files.run openedFully (Files.empty 71)).2.handles fd ≠ none := by decide +kernel

end SpectreOS
